import MiddleEnd.Proofs.Slots

/-!
# Following slots down the dominator tree

What a slot holds at the head of a block is what a phi merges for it there, or else what it holds at
the end of the immediate dominator. Where nothing is merged, every other way into the block brings
the same: no block between the immediate dominator and the end of an edge to the block stores to the
slot or merges it. So what is found going up the tree is what the slot holds however control comes
to the block.
-/

namespace MiddleEnd

theorem Guards.induct {α : Type} {E : α → α → Prop} {root : α} {P : α → Prop}
    (step : ∀ {b}, Connects E root b → (∀ d, d ≠ b → Guards E root d b → P d) → P b) {b : α}
    (hb : Connects E root b) : P b := by
  obtain ⟨w, hw⟩ := hb
  induction hn : w.length using Nat.strongRecOn generalizing b w with
  | ind n ih =>
    refine step ⟨w, hw⟩ fun d hne hd => ?_
    obtain ⟨q, hq, hlt, -⟩ := hw.upTo (hd.2 w hw)
    refine ih q.length ?_ q hq rfl
    have := hlt.resolve_left hne
    omega

theorem Connects.mono {α : Type} {E E' : α → α → Prop} {root b : α} (hE : ∀ {x y}, E' x y → E x y)
    (h : Connects E' root b) : Connects E root b := by
  obtain ⟨w, hw⟩ := h
  exact ⟨w, hw.mono hE⟩

theorem Guards.of_sub {α : Type} {E E' : α → α → Prop} {root d b : α} (hE : ∀ {x y}, E' x y → E x y)
    (h : Guards E root d b) (hb : Connects E' root b) : Guards E' root d b :=
  ⟨hb, fun w hw => h.2 w (hw.mono hE)⟩

theorem DominatorTree.Faithful.of_leads {f f' : Func} {entry : BlockId} {t : DominatorTree}
    (h : t.Faithful f entry) (hl : f'.Leads = f.Leads) : t.Faithful f' entry where
  listing := ⟨h.listing.nodup, h.listing.head, hl ▸ h.listing.mem⟩
  isReachable_iff := hl ▸ h.isReachable_iff
  dominates_iff := hl ▸ h.dominates_iff
  idom?_iff := hl ▸ h.idom?_iff
  idom?_ok := hl ▸ h.idom?_ok
  idom?_earlier := h.idom?_earlier
  children := hl ▸ h.children
  frontier := hl ▸ h.frontier

theorem DominatorTree.Faithful.below_iff {f : Func} {entry b : BlockId} {t : DominatorTree}
    (ht : t.Faithful f entry) (hb : Connects f.Leads entry b) {xs : List InstId}
    (hxs : f.insts b = .ok xs) {i : InstId} :
    f.Below entry b i ↔ i ∈ xs ∨ ∃ c, t.idom? c = some b ∧ f.Below entry c i := by
  constructor
  · rintro ⟨home, ys, hhome, hi, hg⟩
    rcases (ht.guards_iff hb).1 hg with rfl | ⟨c, hc, hgc⟩
    · cases hxs.symm.trans hhome
      exact .inl hi
    · exact .inr ⟨c, hc, home, ys, hhome, hi, hgc⟩
  · rintro (hi | ⟨c, hc, hbelow⟩)
    · exact ⟨b, xs, hxs, hi, hb.guards_self⟩
    · exact hbelow.trans ((ht.idom?_iff c b).1 hc).2.1

theorem Func.Avail.descend {f : Func} {E : BlockId → BlockId → Prop}
    {entry d b : BlockId} {v : ValueId} {rest : List InstId} (h : f.Avail E entry d [] v)
    (hne : d ≠ b) (hg : Guards E entry d b) :
    f.Avail E entry b rest v := by
  intro ty i ho
  obtain ⟨home, xs, hxs, hi, hhome, -⟩ := h ho
  refine ⟨home, xs, hxs, hi, hhome.trans hg, ?_⟩
  rintro rfl
  exact absurd (hg.antisymm hhome) hne

theorem Func.Avail.later {f : Func} {E : BlockId → BlockId → Prop} {entry b : BlockId} {v : ValueId}
    {rest rest' : List InstId} (h : f.Avail E entry b rest v) (hsub : rest' ⊆ rest) :
    f.Avail E entry b rest' v := by
  intro ty i ho
  obtain ⟨home, xs, hxs, hi, hhome, hout⟩ := h ho
  exact ⟨home, xs, hxs, hi, hhome, fun he hm => hout he (hsub hm)⟩

namespace Func.Formed

variable {f : Func} {entry b : BlockId} {pre post : List InstId} {j : InstId}

theorem phis_before (hf : f.Formed entry) (hb : f.insts b = .ok (pre ++ j :: post))
    (hj : f.flow.isPhi j = true) :
    ∀ i ∈ pre, f.flow.isPhi i = true := by
  intro i hi
  obtain ⟨front, back, rfl, -⟩ := split_first hi
  cases hip : f.flow.isPhi i with
  | true => rfl
  | false =>
    rw [List.append_assoc, List.cons_append] at hb
    have := hf.plain_suffix hb hip j (by simp)
    rw [hj] at this
    cases this

theorem plain_subset (hf : f.Formed entry) (hb : f.insts b = .ok (pre ++ post))
    (hplain : ∀ i ∈ post, f.flow.isPhi i = false) :
    post ⊆ (pre ++ post).dropWhile f.flow.isPhi := by
  intro i hi
  obtain ⟨-, -, hsplit⟩ := hf.body_of_block hb
  have hmem : i ∈ pre ++ post := List.mem_append_right _ hi
  rw [hsplit] at hmem
  refine (List.mem_append.1 hmem).resolve_left fun hm => ?_
  have := List.all_eq_true.1 List.all_takeWhile i hm
  rw [hplain i hi] at this
  cases this

end Func.Formed

theorem Func.Orderly.stored {f : Func} {E : BlockId → BlockId → Prop} {entry : BlockId}
    (hf : f.Orderly E entry) {b : BlockId} {pre post : List InstId} {j : InstId} {a y : ValueId}
    (hb : Connects E entry b) (hxs : f.insts b = .ok (pre ++ j :: post))
    (hj : f.flow.inst? j = some (.binary .store a y)) :
    f.Avail E entry b (j :: post) y :=
  hf.body hb hxs hj rfl (by simp [Inst.args])

namespace Promotion

def heldWithin (f : Func) (t : DominatorTree) (merged? : BlockId → Option ValueId) (a : ValueId) :
    Nat → BlockId → Option ValueId
  | 0, _ => none
  | n + 1, b => (merged? b).or ((t.idom? b).bind fun d => (f.insts d).toOption.bind fun xs =>
      f.lastStored a (heldWithin f t merged? a n d) xs)

def held (f : Func) (t : DominatorTree) (merged? : BlockId → Option ValueId) (a : ValueId)
    (b : BlockId) :
    Option ValueId :=
  heldWithin f t merged? a t.order.length b

def heldAtEnd (f : Func) (t : DominatorTree) (merged? : BlockId → Option ValueId) (a : ValueId)
    (b : BlockId) :
    Option ValueId :=
  (f.insts b).toOption.bind fun xs => f.lastStored a (held f t merged? a b) xs

section

variable {f : Func} {t : DominatorTree} {entry b p d : BlockId} {merged? : BlockId → Option ValueId}
  {a v : ValueId} {xs : List InstId}

theorem heldAtEnd_eq (hxs : f.insts b = .ok xs) :
    heldAtEnd f t merged? a b = f.lastStored a (held f t merged? a b) xs := by
  unfold heldAtEnd
  rw [hxs]
  rfl

theorem heldWithin_congr {f' : Func} (hinsts : f'.insts = f.insts)
    (hlast : ∀ held? xs, f'.lastStored a held? xs = f.lastStored a held? xs) (n : Nat)
    (b : BlockId) :
    heldWithin f' t merged? a n b = heldWithin f t merged? a n b := by
  induction n generalizing b with
  | zero => rfl
  | succ n ih =>
    rw [heldWithin, heldWithin, hinsts]
    simp only [hlast, ih]

theorem heldAtEnd_congr {f' : Func} (hinsts : f'.insts = f.insts)
    (hlast : ∀ held? xs, f'.lastStored a held? xs = f.lastStored a held? xs) (b : BlockId) :
    heldAtEnd f' t merged? a b = heldAtEnd f t merged? a b := by
  unfold heldAtEnd held
  rw [hinsts, heldWithin_congr hinsts hlast]
  simp only [hlast]

theorem heldWithin_stable (ht : t.Faithful f entry) {k n m : Nat} (hk : t.order[k]? = some b)
    (hn : k < n) (hm : k < m) :
    heldWithin f t merged? a n b = heldWithin f t merged? a m b := by
  induction k using Nat.strongRecOn generalizing b n m with
  | ind k ih =>
    obtain ⟨n, rfl⟩ := Nat.exists_eq_succ_of_ne_zero (Nat.ne_of_gt (Nat.zero_lt_of_lt hn))
    obtain ⟨m, rfl⟩ := Nat.exists_eq_succ_of_ne_zero (Nat.ne_of_gt (Nat.zero_lt_of_lt hm))
    rw [heldWithin, heldWithin]
    cases hd : t.idom? b with
    | none => rfl
    | some d =>
      obtain ⟨j, hj, hjd⟩ := ht.idom?_earlier hd hk
      have hsame := @ih j hj _ n m hjd (by omega) (by omega)
      rw [Option.bind_some, Option.bind_some, hsame]

theorem held_eq (ht : t.Faithful f entry) (hb : Connects f.Leads entry b) :
    held f t merged? a b = (merged? b).or ((t.idom? b).bind (heldAtEnd f t merged? a)) := by
  obtain ⟨k, hk⟩ := List.getElem?_of_mem ((ht.listing.mem b).2 hb)
  have hlt : k < t.order.length := (List.getElem?_eq_some_iff.1 hk).1
  unfold held
  rw [heldWithin_stable ht hk hlt (Nat.lt_succ_of_lt hlt), heldWithin]
  rfl

theorem held_merged (ht : t.Faithful f entry) (hb : Connects f.Leads entry b)
    (hm : merged? b = some v) :
    held f t merged? a b = some v := by
  rw [held_eq ht hb, hm]
  rfl

theorem held_root (ht : t.Faithful f entry) (hm : merged? entry = none) :
    held f t merged? a entry = none := by
  rw [held_eq ht (.refl _ _), hm]
  cases hd : t.idom? entry with
  | none => rfl
  | some d =>
    obtain ⟨hne, hg, -⟩ := (ht.idom?_iff _ _).1 hd
    exact absurd hg.root_eq hne

theorem held_below (ht : t.Faithful f entry) (hb : Connects f.Leads entry b) (hm : merged? b = none)
    (hd : t.idom? b = some d) : held f t merged? a b = heldAtEnd f t merged? a d := by
  rw [held_eq ht hb, hm, hd]
  rfl

/-- A block where the dominance of another one ends, in terms of walks from the entry. -/
def Borders (f : Func) (entry q b : BlockId) : Prop :=
  (∃ p, f.Leads p b ∧ Guards f.Leads entry q p) ∧ ¬ (q ≠ b ∧ Guards f.Leads entry q b)

/-- If the blocks on whose border a block lies neither merge the slot nor store to it, all
predecessors bring what the immediate dominator has at its end. -/
theorem held_of_pred (ht : t.Faithful f entry) (hne : b ≠ entry) (hp : Connects f.Leads entry p)
    (hpb : f.Leads p b) (hmerged : merged? b = none)
    (hquiet : ∀ q, Borders f entry q b → merged? q = none ∧
      ∀ xs held?, f.insts q = .ok xs → f.lastStored a held? xs = held?)
    (hplaced : ∀ q, Connects f.Leads entry q → ∃ xs, f.insts q = .ok xs) :
    held f t merged? a b = heldAtEnd f t merged? a p := by
  have hb : Connects f.Leads entry b := hp.step hpb
  obtain ⟨d, hd⟩ := ht.idom?_ok hb hne
  obtain ⟨hdb, hg, hleast⟩ := (ht.idom?_iff b d).1 hd
  have hup : ∀ {q}, Connects f.Leads entry q → Guards f.Leads entry d q → Guards f.Leads entry q p →
      heldAtEnd f t merged? a q = heldAtEnd f t merged? a d := by
    intro q hq
    refine Guards.induct (P := fun q => Guards f.Leads entry d q → Guards f.Leads entry q p →
      heldAtEnd f t merged? a q = heldAtEnd f t merged? a d) (fun {q} hq ih hdq hqp => ?_) hq
    by_cases he : q = d
    · rw [he]
    · -- A block strictly below the immediate dominator does not dominate the block as well.
      have hborder : Borders f entry q b := by
        refine ⟨⟨p, hpb, hqp⟩, fun hqb => he ?_⟩
        exact (hleast q hqb.1 hqb.2).antisymm hdq
      obtain ⟨hnone, hstay⟩ := hquiet q hborder
      have hqe : q ≠ entry := by
        rintro rfl
        exact he hdq.root_eq.symm
      obtain ⟨c, hc⟩ := ht.idom?_ok hq hqe
      obtain ⟨hcq, hgc, hleastc⟩ := (ht.idom?_iff q c).1 hc
      obtain ⟨xs, hxs⟩ := hplaced q hq
      rw [heldAtEnd_eq hxs, hstay xs _ hxs, held_below ht hq hnone hc]
      exact ih c hcq hgc (hleastc d (Ne.symm he) hdq) (hgc.trans hqp)
  rw [held_below ht hb hmerged hd]
  exact (hup hp (hg.of_step hdb hp hpb) hp.guards_self).symm

end

/-- What stands for some slots has been put in the place of their loads and into phis. -/
structure Resolved (f : Func) (entry : BlockId) (t : DominatorTree)
    (slots : List (InstId × ValueId)) (σ : ValueId → ValueId)
    (merged? : ValueId → BlockId → Option ValueId) : Prop where
  tree : t.Faithful f entry
  hidden : ∀ {i a}, (i, a) ∈ slots → f.Private i a
  moved : ∀ {x}, σ x ≠ x → ∃ i a l, (i, a) ∈ slots ∧ f.flow.inst? l = some (.unary .load a) ∧
    f.flow.result? l = some x
  loads : ∀ {i a}, (i, a) ∈ slots → ∀ {b pre l post r}, Connects f.Leads entry b →
    f.insts b = .ok (pre ++ l :: post) →
    f.flow.inst? l = some (.unary .load a) → f.flow.result? l = some r →
    f.Stands σ (σ r) (f.lastStored a (held f t (merged? a) a b) pre)
  root : ∀ {i a}, (i, a) ∈ slots → merged? a entry = none
  phis : ∀ {i a}, (i, a) ∈ slots → ∀ {b v xs}, merged? a b = some v → f.insts b = .ok xs →
    ∃ phi ∈ xs.takeWhile f.flow.isPhi, f.flow.result? phi = some v ∧
      ∀ {p}, Connects f.Leads entry p → f.Leads p b → ∃ x, f.flow.incoming? phi p = .ok (some x) ∧
        f.Stands σ x (heldAtEnd f t (merged? a) a p)
  quiet : ∀ {i a}, (i, a) ∈ slots → ∀ {b}, merged? a b = none → ∀ q, Borders f entry q b →
    merged? a q = none ∧
    ∀ xs held?, f.insts q = .ok xs → f.lastStored a held? xs = held?

section

variable {f : Func} {E : BlockId → BlockId → Prop} {entry : BlockId} {t : DominatorTree}
  {slots : List (InstId × ValueId)} {σ : ValueId → ValueId}
  {merged? : ValueId → BlockId → Option ValueId} {i : InstId} {a : ValueId}

theorem Resolved.phi_fixed (h : Resolved f entry t slots σ merged?) (hf : f.Coherent)
    {phi : InstId} {r : ValueId} (hphi : f.flow.isPhi phi = true)
    (hr : f.flow.result? phi = some r) : σ r = r := by
  refine Classical.byContradiction fun hmoved => ?_
  obtain ⟨_, _, l, -, hl, hlr⟩ := h.moved hmoved
  obtain ⟨ty, ho, -⟩ := hf.flow.result_origin hr
  rw [hf.flow.definer_eq hlr ho, DataFlow.isPhi_of_inst hl] at hphi
  cases hphi

theorem Resolved.avail_head (h : Resolved f entry t slots σ merged?) (hf : f.Formed entry)
    (hE : ∀ {a b}, E a b → f.Leads a b) {b : BlockId} (hb : Connects E entry b)
    (hs : (i, a) ∈ slots) (hup : ∀ {d xs w}, d ≠ b → Guards E entry d b → f.insts d = .ok xs →
      heldAtEnd f t (merged? a) a d = some w →
      f.Avail E entry d [] (σ w))
    {xs rest : List InstId} {w : ValueId} (hxs : f.insts b = .ok xs)
    (hrest : rest ⊆ xs.dropWhile f.flow.isPhi) (hw : held f t (merged? a) a b = some w) :
    f.Avail E entry b rest (σ w) := by
  have hlead := Connects.mono hE hb
  cases hm : merged? a b with
  | some v =>
    rw [held_merged h.tree hlead hm] at hw
    cases hw
    obtain ⟨phi, hphi, hres, -⟩ := h.phis hs hm hxs
    have hisphi : f.flow.isPhi phi = true := List.all_eq_true.1 List.all_takeWhile phi hphi
    rw [h.phi_fixed hf.coherent hisphi hres, hf.coherent.avail_iff hres]
    refine ⟨b, xs, hxs, (List.takeWhile_prefix _).subset hphi, hb.guards_self, fun _ hm => ?_⟩
    have := (hf.body_of_block hxs).2.1 phi (hrest hm)
    rw [hisphi] at this
    cases this
  | none =>
    rw [held_eq h.tree hlead, hm, Option.none_or] at hw
    obtain ⟨d, hd, hw⟩ := Option.bind_eq_some_iff.1 hw
    obtain ⟨hne, hg, -⟩ := (h.tree.idom?_iff b d).1 hd
    have hgE := hg.of_sub hE hb
    obtain ⟨ys, hys⟩ := Layout.mem_blocks_iff.1 (hf.shape.closed.connects_mem hf.starts hg.connects)
    exact (hup hne hgE hys hw).descend hne hgE

theorem Resolved.avail_moved (h : Resolved f entry t slots σ merged?) (hf : f.Formed entry)
    (hE : ∀ {a b}, E a b → f.Leads a b) {b : BlockId} {pre rest : List InstId} {w : ValueId}
    (hxs : f.insts b = .ok (pre ++ rest)) (hav : f.Avail E entry b rest w) (hmoved : σ w ≠ w)
    (hup : ∀ {home pre' l post' i a w'}, (i, a) ∈ slots → f.insts home = .ok (pre' ++ l :: post') →
      f.flow.isPhi l = false → Guards E entry home b → (home = b → l ∉ rest) →
      f.lastStored a (held f t (merged? a) a home) pre' = some w' → f.Avail E entry home
        (l :: post') (σ w')) :
    f.Avail E entry b rest (σ w) := by
  obtain ⟨i, a, l, hs, hl, hlr⟩ := h.moved hmoved
  obtain ⟨home, ys, hys, hly, hg, hout⟩ := (hf.coherent.avail_iff hlr).1 hav
  obtain ⟨pre', post', rfl, -⟩ := split_first hly
  refine (h.loads hs (Connects.mono hE hg.connects) hys hl hlr).avail fun w' hw' => ?_
  have hthere : f.Avail E entry home (l :: post') (σ w') :=
    hup hs hys (DataFlow.isPhi_of_inst hl) hg hout hw'
  exact fun _ _ ho => hf.behind_trans hys (hthere ho) hxs ⟨home, _, hys, hly, hg, hout⟩

/-- Along edges on which stored values are there when they are stored, what stands for a slot is
there wherever the slot holds it. -/
theorem Resolved.avail (h : Resolved f entry t slots σ merged?) (hf : f.Formed entry)
    (hE : ∀ {a b}, E a b → f.Leads a b)
    (hstored : ∀ {a b pre j post y}, Connects E entry b → f.insts b = .ok (pre ++ j :: post) →
      f.flow.inst? j = some (.binary .store a y) → f.Avail E entry b (j :: post) y)
    {b : BlockId} (hb : Connects E entry b) (hs : (i, a) ∈ slots)
    {pre rest : List InstId} {w : ValueId} (hxs : f.insts b = .ok (pre ++ rest))
    (hplain : ∀ j ∈ rest, f.flow.isPhi j = false)
    (hw : f.lastStored a (held f t (merged? a) a b) pre = some w) :
    f.Avail E entry b rest (σ w) := by
  refine Guards.induct (P := fun b => ∀ {i a}, (i, a) ∈ slots →
    ∀ {pre rest w}, f.insts b = .ok (pre ++ rest) →
    (∀ j ∈ rest, f.flow.isPhi j = false) → f.lastStored a (held f t (merged? a) a b) pre = some w →
    f.Avail E entry b rest (σ w)) (fun {b} hb ih {i a} hs {pre rest w} hxs hplain hw => ?_) hb
    hs hxs hplain hw
  induction hn : pre.length using Nat.strongRecOn generalizing i a pre rest w with
  | ind n ihn =>
    subst hn
    have hhead : (∀ j ∈ pre, f.flow.isPhi j = true) →
        f.Avail E entry b rest (σ w) := fun hphis => by
      -- Nothing is stored among the phis.
      rw [Func.lastStored_phis hphis] at hw
      refine h.avail_head hf hE hb hs (fun hne hg hys hw' => ?_) hxs (hf.plain_subset hxs hplain) hw
      rw [heldAtEnd_eq hys] at hw'
      exact ih _ hne hg hs (by rw [List.append_nil]; exact hys) (by simp) hw'
    rcases List.eq_nil_or_concat pre with rfl | ⟨front, j, rfl⟩
    · exact hhead fun j hj => absurd hj List.not_mem_nil
    · rw [List.concat_eq_append] at *
      have hxs' : f.insts b = .ok (front ++ j :: rest) := by
        rw [hxs, List.append_assoc, List.singleton_append]
      cases hj : f.flow.isPhi j with
      | true =>
        refine hhead fun k hk => ?_
        rcases List.mem_append.1 hk with hk | hk
        · exact hf.phis_before hxs' hj k hk
        · rw [List.mem_singleton.1 hk]
          exact hj
      | false =>
        have hplain' := hf.plain_suffix hxs' hj
        have hback : f.lastStored a (held f t (merged? a) a b) front = some w →
            f.Avail E entry b rest (σ w) := fun hw' =>
          (ihn front.length (by simp) hs hxs' hplain' hw' rfl).later (List.subset_cons_self j rest)
        obtain ⟨jnst, hjnst⟩ :=
          hf.coherent.inst_of_mem hxs' (List.mem_append_right _ List.mem_cons_self)
        rw [Func.lastStored_append] at hw
        by_cases hstore : ∃ y, jnst = .binary .store a y
        · obtain ⟨y, rfl⟩ := hstore
          rw [Func.lastStored_store hjnst] at hw
          cases hw
          have hav := hstored hb hxs' hjnst
          by_cases hmoved : σ w = w
          · rw [hmoved]
            exact hav.later (List.subset_cons_self j rest)
          · -- The stored value was loaded from a slot itself, further up.
            refine (h.avail_moved hf hE hxs' hav hmoved
              fun {home pre' l post' i' a' w'} hs' hys hlp hg hout hw' =>
              ?_).later (List.subset_cons_self j rest)
            by_cases he : home = b
            · subst he
              have hlen : pre'.length < (front ++ [j]).length := by
                rw [List.length_append, List.length_singleton]
                rcases List.append_eq_append_iff.1 (Except.ok.inj (hys.symm.trans hxs')) with
                  ⟨as, rfl, -⟩ | ⟨bs, -, hrest⟩
                · rw [List.length_append]
                  omega
                · exact absurd (hrest ▸ List.mem_append_right _ List.mem_cons_self) (hout rfl)
              exact ihn _ hlen hs' hys (hf.plain_suffix hys hlp) hw' rfl
            · exact ih home he hg hs' hys (hf.plain_suffix hys hlp) hw'
        · rw [Func.lastStored_other hjnst fun y he => hstore ⟨y, he⟩] at hw
          exact hback hw

theorem Resolved.kept_on_entry (h : Resolved f entry t slots σ merged?)
    (hf : f.Orderly E entry) {b : BlockId} (hb : Connects E entry b) (hs : (i, a) ∈ slots)
    (hm : merged? a b = none) {ys : List InstId} (hys : f.insts b = .ok ys) {w : ValueId}
    (hw : held f t (merged? a) a b = some w) {j : InstId} (hj : j ∈ ys) :
    f.flow.result? j ≠ some (σ w) := by
  intro hres
  have hlead := Connects.mono hf.edges hb
  rw [held_eq h.tree hlead, hm, Option.none_or] at hw
  obtain ⟨d, hd, hw⟩ := Option.bind_eq_some_iff.1 hw
  obtain ⟨hne, hg, -⟩ := (h.tree.idom?_iff b d).1 hd
  have hgE := hg.of_sub hf.edges hb
  obtain ⟨xs, hxs⟩ := Layout.mem_blocks_iff.1 (hf.shape.closed.connects_mem hf.starts hg.connects)
  have hxs : f.insts d = .ok xs := hxs
  rw [heldAtEnd_eq hxs] at hw
  have hav : f.Avail E entry d [] (σ w) := h.avail hf.toFormed hf.edges
    hf.stored hgE.connects hs
    (by rw [List.append_nil]; exact hxs) (by simp) hw
  have hback := (hf.behind_iff hys hj).1 ((hf.coherent.avail_iff hres).1 hav)
  exact hne (hgE.antisymm hback.1)

theorem Resolved.tracked (h : Resolved f entry t slots σ merged?) (hf : f.Orderly E entry)
    (hsource : ∀ p, ¬ f.Leads p entry) :
    f.Tracked E entry slots σ fun a => held f t (merged? a) a where
  hidden := h.hidden
  moved := h.moved
  tracks {i a} hs := by
    have hlead : ∀ {c}, Connects E entry c → Connects f.Leads entry c := Connects.mono hf.edges
    refine ⟨held_root h.tree (h.root hs), fun {p b xs ys} hp hE hxs hys => ?_,
      fun hb => h.loads hs (hlead hb),
      fun hb => h.avail hf.toFormed hf.edges hf.stored hb hs⟩
    have hedge := hf.edges hE
    cases hm : merged? a b with
    | some v =>
      obtain ⟨phi, hphi, hres, hfill⟩ := h.phis hs hm hys
      obtain ⟨x, hx, hst⟩ := hfill (hlead hp) hedge
      rw [heldAtEnd_eq hxs] at hst
      exact .inr ⟨phi, v, x, hphi, hres, held_merged h.tree (hlead (hp.step hE)) hm, hx, hst⟩
    | none =>
      refine .inl ⟨?_, fun w hw j hj => h.kept_on_entry hf (hp.step hE) hs hm hys hw hj⟩
      rw [← heldAtEnd_eq hxs]
      refine held_of_pred h.tree ?_ (hlead hp) hedge hm (h.quiet hs hm) fun q hq =>
        Layout.mem_blocks_iff.1 (hf.shape.closed.connects_mem hf.starts hq)
      rintro rfl
      exact hsource p hedge

end

end Promotion

end MiddleEnd
