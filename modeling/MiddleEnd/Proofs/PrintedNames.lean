import MiddleEnd.Proofs.ValueNames

/-!
# Names in print

Numbers that follow a dot keep apart what carries one name: two blocks never print alike, whatever
they are called. Two values do not either, if no name looks like the number of another value or like
a name with a number behind it.
-/

namespace MiddleEnd

/-- Decimal digits, at least one. -/
def IsNumeral (text : String) : Prop := text ≠ "" ∧ text.toList.all Char.isDigit = true

instance (text : String) : Decidable (IsNumeral text) := inferInstanceAs (Decidable (_ ∧ _))

theorem isNumeral_toString (n : Nat) : IsNumeral (toString n) := by
  have hdigits : (toString n).toList = Nat.toDigits 10 n := Nat.toList_repr
  constructor
  · intro hempty
    rw [hempty] at hdigits
    exact Nat.toDigits_ne_nil hdigits.symm
  · rw [hdigits, List.all_eq_true]
    intro c hc
    exact Nat.isDigit_of_mem_toDigits (by decide) (by decide) hc

theorem toString_nat_inj {n n' : Nat} (h : toString n = toString n') : n = n' := by
  have hdigits : Nat.toDigits 10 n = Nat.toDigits 10 n' := by
    rw [← Nat.toList_repr, ← Nat.toList_repr]
    exact congrArg String.toList h
  calc
    n = Nat.ofDigitChars 10 (Nat.toDigits 10 n) 0 := Nat.ofDigitChars_ten_toDigits.symm
    _ = Nat.ofDigitChars 10 (Nat.toDigits 10 n') 0 := by rw [hdigits]
    _ = n' := Nat.ofDigitChars_ten_toDigits

theorem IsNumeral.dot_not_mem {text : String} (h : IsNumeral text) : '.' ∉ text.toList := by
  intro hdot
  have hdigit := List.all_eq_true.1 h.2 '.' hdot
  revert hdigit
  decide

theorem split_last {α : Type} {a : α} {xs ys ds es : List α} (hd : a ∉ ds) (he : a ∉ es)
    (h : xs ++ a :: ds = ys ++ a :: es) : xs = ys ∧ ds = es := by
  rcases List.append_eq_append_iff.1 h with ⟨between, rfl, hrest⟩ | ⟨between, rfl, hrest⟩
  · cases between with
    | nil =>
      cases hrest
      exact ⟨(List.append_nil xs).symm, rfl⟩
    | cons b between =>
      cases hrest
      exact absurd (List.mem_append_right between List.mem_cons_self) hd
  · cases between with
    | nil =>
      cases hrest
      exact ⟨List.append_nil ys, rfl⟩
    | cons b between =>
      cases hrest
      exact absurd (List.mem_append_right between List.mem_cons_self) he

def numbered (text : String) (n : Nat) : String := text ++ "." ++ toString n

theorem toList_numbered (text : String) (n : Nat) :
    (numbered text n).toList = text.toList ++ '.' :: (toString n).toList := by
  rw [numbered, String.toList_append, String.toList_append, List.append_assoc]
  rfl

theorem dot_mem_numbered (text : String) (n : Nat) : '.' ∈ (numbered text n).toList := by
  rw [toList_numbered]
  exact List.mem_append_right _ List.mem_cons_self

theorem numbered_inj {text text' : String} {n n' : Nat} (h : numbered text n = numbered text' n') :
    text = text' ∧ n = n' := by
  have hlists := congrArg String.toList h
  rw [toList_numbered, toList_numbered] at hlists
  obtain ⟨htext, hn⟩ := split_last (isNumeral_toString n).dot_not_mem
    (isNumeral_toString n').dot_not_mem hlists
  exact ⟨String.toList_inj.1 htext, toString_nat_inj (String.toList_inj.1 hn)⟩

theorem dot_not_mem_blockId (c : BlockId) : '.' ∉ (toString c).toList := by
  have htext : toString c = "bb" ++ toString c.index := rfl
  rw [htext, String.toList_append, List.mem_append]
  intro hdot
  rcases hdot with hdot | hdot
  · revert hdot
    decide
  · exact (isNumeral_toString c.index).dot_not_mem hdot

theorem blockId_toString_inj {c d : BlockId} (h : toString c = toString d) : c = d := by
  have hindex : toString c.index = toString d.index := (String.append_right_inj "bb").1 h
  exact Key.index_inj (toString_nat_inj hindex)

theorem Func.blockText_inj (f : Func) {c d : BlockId} (h : f.blockText c = f.blockText d) :
    c = d := by
  unfold blockText at h
  split at h <;> split at h
  · rename_i text _ _ text' _
    have hnumbered : numbered text c.index = numbered text' d.index := h
    exact Key.index_inj (numbered_inj hnumbered).2
  · rename_i text _ _ _
    exact absurd (h ▸ dot_mem_numbered text c.index) (dot_not_mem_blockId d)
  · rename_i _ _ text _
    exact absurd (h ▸ dot_mem_numbered text d.index) (dot_not_mem_blockId c)
  · exact blockId_toString_inj h

/-- Parameters, registers and results; constants and `undef` print as what they are. -/
def ValueDef.isVariable : ValueDef → Bool
  | param _ _ | reg _ | result _ _ => true
  | const _ | undef _ => false

/-- The value is there, and it prints as its name or its number. -/
def DataFlow.Variable (g : DataFlow) (v : ValueId) : Prop :=
  ∃ o, g.origin? v = some o ∧ o.isVariable = true

/-- The name has no dot in it and is no number. -/
def IsPlain (name : String) : Prop := '.' ∉ name.toList ∧ ¬ IsNumeral name

instance (name : String) : Decidable (IsPlain name) := inferInstanceAs (Decidable (_ ∧ _))

/-- The value has no name, or a plain one. -/
def DataFlow.PlainlyNamed (g : DataFlow) (v : ValueId) : Prop :=
  ∀ name, g.name? v = some name → IsPlain name

namespace Func

variable {f : Func} {v w : ValueId}

/-- The ways to print a value: the number, the name, or the name and the number if others have the
name too. -/
inductive Prints (f : Func) (v : ValueId) : String → Prop where
  | number (hname : f.flow.name? v = none) : Prints f v ("%" ++ toString v.index)
  | name {name : String} (hname : f.flow.name? v = some name)
      (hshared : f.flow.isNameShared v = false) :
      Prints f v ("%" ++ name)
  | both {name : String} (hname : f.flow.name? v = some name)
      (hshared : f.flow.isNameShared v = true) :
      Prints f v ("%" ++ numbered name v.index)

theorem prints_valueText (hv : f.flow.Variable v) : Prints f v (f.valueText v) := by
  obtain ⟨o, ho, hvariable⟩ := hv
  unfold valueText
  rw [ho]
  split
  · rename_i hnone
    cases hnone
  · rename_i hconst
    cases hconst
    cases hvariable
  · rename_i hundef
    cases hundef
    cases hvariable
  · split
    · rename_i hname
      exact .number hname
    · rename_i name hname
      split
      · rename_i hshared
        have htext : "%" ++ name ++ "." ++ toString v.index = "%" ++ numbered name v.index := by
          rw [numbered, String.append_assoc, String.append_assoc, String.append_assoc]
        rw [htext]
        exact .both hname hshared
      · rename_i hshared
        exact .name hname (Bool.eq_false_iff.2 hshared)

/-- What stands behind the `%` tells the three ways apart: a number has only digits, a plain name
has others and no dot, and a number that follows a name follows a dot. -/
theorem Prints.unique (hcounted : f.flow.Counted) (hv : f.flow.PlainlyNamed v)
    (hw : f.flow.PlainlyNamed w) {text : String} (h : Prints f v text) (h' : Prints f w text) :
    v = w := by
  have hplain : ∀ {s t : String}, "%" ++ s = "%" ++ t → s = t := (String.append_right_inj "%").1
  generalize he : text = text' at h'
  cases h with
  | number hname =>
    cases h' with
    | number hname' => exact Key.index_inj (toString_nat_inj (hplain he))
    | name hname' _ => exact absurd (hplain he ▸ isNumeral_toString v.index) (hw _ hname').2
    | both hname' _ =>
      exact absurd (hplain he ▸ dot_mem_numbered _ w.index) (isNumeral_toString v.index).dot_not_mem
  | name hname hshared =>
    cases h' with
    | number hname' => exact absurd (hplain he ▸ isNumeral_toString w.index) (hv _ hname).2
    | name hname' hshared' =>
      cases hplain he
      -- the name would be shared
      by_contra hne
      have hboth := (hcounted.isNameShared_iff hname).2 ⟨w, Ne.symm hne, hname'⟩
      rw [hshared] at hboth
      cases hboth
    | both hname' _ => exact absurd (hplain he ▸ dot_mem_numbered _ w.index) (hv _ hname).1
  | both hname _ =>
    cases h' with
    | number hname' =>
      exact absurd (hplain he ▸ dot_mem_numbered _ v.index) (isNumeral_toString w.index).dot_not_mem
    | name hname' _ => exact absurd (hplain he ▸ dot_mem_numbered _ v.index) (hw _ hname').1
    | both hname' _ => exact Key.index_inj (numbered_inj (hplain he)).2

end Func

namespace Builder

/-- Whatever was done to a function, a name counts as shared if and only if another value carries
it, and that value is there if names were only given to values that are there. Different blocks
print differently, and so do different values with plain names. -/
theorem history_prints_apart {name : String} {sig : Signature} {b : Builder}
    (h : History Action.Offered { func := .new name sig } b) :
    (∀ {v text}, b.flow.name? v = some text →
      (b.flow.isNameShared v = true ↔ ∃ w, w ≠ v ∧ b.flow.name? w = some text)) ∧
    (History Action.NamesPresent { func := .new name sig } b →
      ∀ {v text}, b.flow.name? v = some text → b.flow.hasValue v = true) ∧
    (∀ {c d}, b.func.blockText c = b.func.blockText d → c = d) ∧
    ∀ {v w}, b.flow.Variable v → b.flow.Variable w → b.flow.PlainlyNamed v → b.flow.PlainlyNamed w →
      b.func.valueText v = b.func.valueText w → v = w := by
  have hcounted : b.flow.Counted := History.counted h (DataFlow.ofSignature_counted sig)
  refine ⟨fun hv => hcounted.isNameShared_iff hv, fun hpresent v text hv => ?_,
    b.func.blockText_inj, ?_⟩
  · have hnames : b.flow.Present := History.present hpresent (DataFlow.ofSignature_present sig)
    exact DataFlow.hasValue_iff.2 (hnames hv)
  · intro v w hv hw hplain hplain' htext
    have hprints := Func.prints_valueText hv
    rw [htext] at hprints
    exact hprints.unique hcounted hplain hplain' (Func.prints_valueText hw)

/-- Names that are shared, given away, taken back and gone with their values, and blocks with one
name or misleading ones. -/
def renamed : List Action :=
  [.block (some "a"), .block (some "a.1"), .block (some "a"), .block none, .block (some "bb3"),
    .goTo (.append ⟨0⟩), .build (some "x") (.binary .add ⟨0⟩ ⟨1⟩),
    .build (some "x") (.binary .mul ⟨2⟩ ⟨1⟩), .build (some "y") (.binary .sub ⟨2⟩ ⟨1⟩),
    .edit (.setName ⟨0⟩ "x"), .edit (.setName ⟨1⟩ "y"), .edit (.setName ⟨1⟩ "x"),
    .edit (.clearName ⟨3⟩), .remove ⟨1⟩, .remove ⟨2⟩, .remove ⟨0⟩, .edit (.addReg (.int 32)),
    .edit (.addReg (.int 32)), .edit (.setName ⟨6⟩ "y")]

theorem renamed_prints_apart : ∃ b,
    Action.run Action.NamesPresent
      { func := .new "f" ⟨[.int 32, .int 32], none⟩ } renamed = some b ∧
      (b.flow.isNameShared ⟨0⟩ = true ∧ ∃ w, w ≠ ⟨0⟩ ∧ b.flow.name? w = some "x") ∧
      b.flow.hasValue ⟨6⟩ = true ∧ b.func.blockText ⟨0⟩ ≠ b.func.blockText ⟨1⟩ ∧
      b.func.valueText ⟨0⟩ ≠ b.func.valueText ⟨5⟩ := by
  have hrun : (Action.run Action.NamesPresent { func := .new "f" ⟨[.int 32, .int 32], none⟩ }
      renamed).any (fun b =>
      b.flow.name? ⟨0⟩ = some "x" && b.flow.isNameShared ⟨0⟩ && b.flow.name? ⟨5⟩ = none &&
        b.flow.name? ⟨6⟩ = some "y" &&
      (b.flow.origin? ⟨0⟩).any (·.isVariable) && (b.flow.origin? ⟨5⟩).any (·.isVariable)) =
      true := by decide +kernel
  obtain ⟨b, hb, hcheck⟩ := (Option.any_eq_true _ _).1 hrun
  simp only [Bool.and_eq_true, decide_eq_true_eq] at hcheck
  obtain ⟨⟨⟨⟨⟨hx, hshared⟩, hnone⟩, hy⟩, hparam⟩, hreg⟩ := hcheck
  have hpresent := Action.run_history hb
  obtain ⟨hiff, hthere, hblocks, hvalues⟩ := history_prints_apart (History.offered hpresent)
  have hvariable : ∀ {v}, (b.flow.origin? v).any (·.isVariable) = true →
      b.flow.Variable v := fun h =>
    (Option.any_eq_true _ _).1 h
  have hplain : b.flow.PlainlyNamed ⟨0⟩ := by
    intro name hname
    cases hx.symm.trans hname
    decide +kernel
  have hunnamed : b.flow.PlainlyNamed ⟨5⟩ := by
    intro name hname
    cases hnone.symm.trans hname
  refine ⟨b, hb, ⟨hshared, (hiff hx).1 hshared⟩, hthere hpresent hy, fun h => ?_, fun h => ?_⟩
  · cases hblocks h
  · cases hvalues (hvariable hparam) (hvariable hreg) hplain hunnamed h

/-- A number as a name, and a name that ends in a dot and a number, may be mistaken for another
value. -/
example : (Action.run Action.NamesPresent
    { func := .new "f" ⟨[.int 32, .int 32, .int 32, .int 32, .int 32], none⟩ }
      [.edit (.setName ⟨0⟩ "a"), .edit (.setName ⟨1⟩ "a"), .edit (.setName ⟨2⟩ "a.1"),
        .edit (.setName ⟨3⟩ "4")]).map
    (fun b => b.func.params.map b.func.valueText) = some ["%a.0", "%a.1", "%a.1", "%4", "%4"] := by
  decide +kernel

end Builder

end MiddleEnd
