import MiddleEnd.Execution.Basic
import MiddleEnd.Module

/-!
# Execution of calls

A call runs the function of the module that it names, in an activation of its own and on the same
memory. A call that names no function of the module may return anything of the type it declares.
-/

namespace MiddleEnd

namespace Frame

def activate (s : Frame) (g : Func) (args : List Datum) : Checked Frame := do
  let entry ← start g args
  return { entry with memory := s.memory, activation := s.fresh, fresh := s.fresh + 1 }

def resume (f : Func) (s : Frame) (i : InstId) (result? : Option Datum) : Frame :=
  let s := { s with rest := s.rest.tail }
  match f.flow.result? i, result? with
  | some v, some d => s.set v d
  | _, _ => s

end Frame

/-- The function of the module, if there is one, that an import of `f` stands for. -/
def Func.callee? (f : Func) (m? : Option Module) (target : ImportId) : Option Func := do
  let m ← m?
  let id ← (m.resolve? f target).toOption.join
  m.funcs.get? id

/-- The datum is of the type that an import of `f` declares for its result. -/
def Func.mayReceive (f : Func) (target : ImportId) (result? : Option Datum) : Bool :=
  match f.flow.imports.get? target, result? with
  | some g, some d => d.fits g.sig.returns
  | some g, none => g.sig.returns = .void
  | none, _ => false

/-- A run of `f` comes from one frame to another. -/
inductive Reaches (m? : Option Module) : Func → Frame → Frame → Prop where
  | refl (f : Func) (s : Frame) : Reaches m? f s s
  | next {f : Func} {s t u : Frame} : Reaches m? f s t → t.step f = .ok (.next u) → Reaches m? f s u
  /-- The function that is called runs to its end. -/
  | call {f g : Func} {s t entry last : Frame} {i : InstId} {target : ImportId} {args : List Datum}
      {result? : Option Datum} :
      Reaches m? f s t → t.step f = .ok (.call i target args) → f.callee? m? target = some g →
      t.activate g args = .ok entry → Reaches m? g entry last → last.step g = .ok (.done result?) →
      Reaches m? f s ({ t with memory := last.memory, fresh := last.fresh }.resume f i result?)
  /-- Nothing is known about the function that is called but its type. -/
  | foreign {f : Func} {s t : Frame} {i : InstId} {target : ImportId} {args : List Datum}
      {result? : Option Datum} :
      Reaches m? f s t → t.step f = .ok (.call i target args) → f.callee? m? target = none →
      f.mayReceive target result? → Reaches m? f s (t.resume f i result?)

theorem Reaches.trans {m? : Option Module} {f : Func} {s t u : Frame}
    (h : Reaches m? f s t) (j : Reaches m? f t u) : Reaches m? f s u := by
  induction j with
  | refl => exact h
  | next _ e ih => exact (ih h).next e
  | call _ e hg ha hb hd ih _ => exact (ih h).call e hg ha hb hd
  | foreign _ e hn hr ih => exact (ih h).foreign e hn hr

end MiddleEnd
