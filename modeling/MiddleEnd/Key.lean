/-!
# Keys

Every entity of a program is named by a number, handed out in order of creation and never handed out
again. In print the number follows the letters of its kind. Numbers have no bound here: that a table
of 2^32 entries would run out of 32-bit indices is left out.
-/

namespace MiddleEnd

class Key (κ : Type) where
  index : κ → Nat
  ofIndex : Nat → κ
  index_ofIndex : ∀ n, index (ofIndex n) = n
  ofIndex_index : ∀ k, ofIndex (index k) = k

theorem Key.index_inj {κ : Type} [Key κ] {a b : κ} (h : Key.index a = Key.index b) : a = b := by
  rw [← Key.ofIndex_index a, h, Key.ofIndex_index]

structure InstId where
  index : Nat
  deriving DecidableEq, Repr, Inhabited

/-- A value: a parameter, a constant, `undef`, a register or the result of an instruction. -/
structure ValueId where
  index : Nat
  deriving DecidableEq, Repr, Inhabited

structure BlockId where
  index : Nat
  deriving DecidableEq, Repr, Inhabited

structure ParamId where
  index : Nat
  deriving DecidableEq, Repr, Inhabited

/-- A function that a function refers to by name. -/
structure ImportId where
  index : Nat
  deriving DecidableEq, Repr, Inhabited

structure FuncId where
  index : Nat
  deriving DecidableEq, Repr, Inhabited

structure GlobalId where
  index : Nat
  deriving DecidableEq, Repr, Inhabited

instance : Key InstId := ⟨InstId.index, InstId.mk, fun _ => rfl, fun _ => rfl⟩
instance : Key ValueId := ⟨ValueId.index, ValueId.mk, fun _ => rfl, fun _ => rfl⟩
instance : Key BlockId := ⟨BlockId.index, BlockId.mk, fun _ => rfl, fun _ => rfl⟩
instance : Key ParamId := ⟨ParamId.index, ParamId.mk, fun _ => rfl, fun _ => rfl⟩
instance : Key ImportId := ⟨ImportId.index, ImportId.mk, fun _ => rfl, fun _ => rfl⟩
instance : Key FuncId := ⟨FuncId.index, FuncId.mk, fun _ => rfl, fun _ => rfl⟩
instance : Key GlobalId := ⟨GlobalId.index, GlobalId.mk, fun _ => rfl, fun _ => rfl⟩

instance : ToString InstId := ⟨fun k => "i" ++ toString k.index⟩
instance : ToString ValueId := ⟨fun k => "v" ++ toString k.index⟩
instance : ToString BlockId := ⟨fun k => "bb" ++ toString k.index⟩
instance : ToString ParamId := ⟨fun k => "arg" ++ toString k.index⟩
instance : ToString ImportId := ⟨fun k => "ext" ++ toString k.index⟩
instance : ToString FuncId := ⟨fun k => "f" ++ toString k.index⟩
instance : ToString GlobalId := ⟨fun k => "g" ++ toString k.index⟩

end MiddleEnd
