import MiddleEnd.Proofs.Records

/-!
# Numbers of values

The number of a value is never given to another one. So what is known of a value under its number
stays true after the value is gone: no other value can come under it.
-/

namespace MiddleEnd.DataFlow

/-- The values numbered so far are as they were or gone. -/
structure Onward (g g' : DataFlow) : Prop where
  bound : g.values.bound ≤ g'.values.bound
  origin? : ∀ {v o}, v.index < g.values.bound → g'.origin? v = some o → g.origin? v = some o

variable {g g' g'' : DataFlow} {i : InstId} {inst : Inst} {v : ValueId}

theorem Onward.refl (g : DataFlow) : Onward g g := ⟨Nat.le_refl _, fun _ h => h⟩

theorem Onward.trans (h : Onward g g') (h' : Onward g' g'') : Onward g g'' :=
  ⟨Nat.le_trans h.bound h'.bound,
    fun hv ho => h.origin? hv (h'.origin? (Nat.lt_of_lt_of_le hv h.bound) ho)⟩

theorem onward_of_bound (hb : g'.values.bound = g.values.bound)
    (ho : ∀ {v o}, g'.origin? v = some o → g.origin? v = some o) : Onward g g' :=
  ⟨Nat.le_of_eq hb.symm, fun _ h => ho h⟩

theorem onward_of_values (h : g'.values = g.values) : Onward g g' :=
  onward_of_bound (congrArg Table.bound h) fun {v o} ho => by rwa [DataFlow.origin?, h] at ho

theorem onward_addValue (g : DataFlow) (o : ValueDef) : Onward g (g.addValue o).2 where
  bound := by
    show g.values.bound ≤ (g.values.add { origin := o }).2.bound
    rw [Table.bound_add]
    exact Nat.le_succ _
  origin? hv ho := by rwa [origin?_addValue, if_neg (Nat.ne_of_lt hv)] at ho

theorem onward_linkUse {fault : Fault} (h : g.linkUse fault v i = .ok g') : Onward g g' := by
  have husers := usersOnly_of_linkUse h
  refine onward_of_bound ?_ fun ho => (husers.origins _).symm.trans ho
  unfold linkUse at h
  split at h
  · cases h
    exact Table.bound_update ..
  · cases h

theorem onward_editing : Editing Onward where
  refl := Onward.refl
  trans := Onward.trans
  linkUse := onward_linkUse
  unlinkUse g v i := onward_of_bound (Table.bound_update ..) fun ho =>
    ((unlinkUse_spec g v i).1.origins _).symm.trans ho
  linkBlock _ _ _ := onward_of_values rfl
  unlinkBlock g b i := onward_of_values (unlinkBlock_blockUsersOnly g b i).values
  addValue := onward_addValue
  insts _ _ := onward_of_values rfl
  touch _ := onward_of_values rfl

theorem onward_removeInst (h : g.removeInst i = .ok g') : Onward g g' := by
  rcases removeInst_parts h with ⟨-, hdetach⟩ | ⟨v, e, values, -, -, hvalues, hdetach⟩
  · exact onward_editing.detach hdetach
  · obtain ⟨-, hbound, hget⟩ := Table.remove_eq_ok hvalues
    have hremoved : Onward g { g with values } := by
      refine onward_of_bound hbound fun {w o} ho => ?_
      change (values.get? w).map _ = some o at ho
      rw [hget] at ho
      split at ho
      · cases ho
      · exact ho
    have hnamed := onward_of_values (clearName_spec { g with values } v).2.1
    exact (hremoved.trans hnamed).trans (onward_editing.detach hdetach)

end MiddleEnd.DataFlow
