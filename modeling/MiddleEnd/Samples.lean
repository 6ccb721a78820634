import MiddleEnd.Module

/-!
# Sample programs

Small programs as a front end would hand them over: local variables live in memory slots.
-/

namespace MiddleEnd

structure Sample where
  name : String
  /-- The program in the notation of C. -/
  description : String
  build : Module → Checked Module

namespace Samples

private def i32 : Ty := .int 32

private def intConst (b : Builder) (i : Int) : Checked (ValueId × Builder) := do
  let (v, flow) := b.flow.const (← Word.ofInt 32 i)
  return (v, b.withFlow flow)

private def namedBlock (b : Builder) (name : String) : Checked (BlockId × Builder) :=
  b.addBlock (some name)

private def addTo (m : Module) (b : Builder) : Checked Module := do
  return (← m.addFunc b.func).2

def whileLoop (m : Module) : Checked Module := do
  let b : Builder := { func := .new "count" ⟨[], some i32⟩ }
  let (entry, b) ← namedBlock b "entry"
  let (cond, b) ← namedBlock b "while.cond"
  let (body, b) ← namedBlock b "while.body"
  let (done, b) ← namedBlock b "while.end"
  let (a, b) ← (b.goTo (.append entry)).alloca (some "a") i32
  let (zero, b) ← intConst b 0
  let (_, b) ← b.store none a zero
  let (_, b) ← b.br none cond
  let (av, b) ← (b.goTo (.append cond)).load none a
  let (limit, b) ← intConst b 20
  let (c, b) ← b.binary none .slt av limit
  let (_, b) ← b.brCond none c body done
  let (av, b) ← (b.goTo (.append body)).load none a
  let (one, b) ← intConst b 1
  let (inc, b) ← b.binary none .add av one
  let (_, b) ← b.store none a inc
  let (_, b) ← b.br none cond
  let (av, b) ← (b.goTo (.append done)).load none a
  let (_, b) ← b.retValue none av
  addTo m b

def redundantMul (m : Module) : Checked Module := do
  let b : Builder := { func := .new "times_eight" ⟨[i32], some i32⟩ }
  let x ← b.func.paramAt 0
  let b := b.withFlow (b.flow.setName x "x")
  let (entry, b) ← namedBlock b "entry"
  let (four, b) ← intConst (b.goTo (.append entry)) 4
  let (u, b) ← b.binary none .mul x four
  let (v, b) ← b.binary none .mul x four
  let (sum, b) ← b.binary none .add u v
  let (_, b) ← b.retValue none sum
  addTo m b

def constBranch (m : Module) : Checked Module := do
  let b : Builder := { func := .new "pick" ⟨[], some i32⟩ }
  let (entry, b) ← namedBlock b "entry"
  let (onTrue, b) ← namedBlock b "if.then"
  let (onFalse, b) ← namedBlock b "if.else"
  let (done, b) ← namedBlock b "if.end"
  let (r, b) ← (b.goTo (.append entry)).alloca (some "r") i32
  let (cond, flow) := b.flow.const (Word.ofBool true)
  let (_, b) ← (b.withFlow flow).brCond none cond onTrue onFalse
  let (ten, b) ← intConst (b.goTo (.append onTrue)) 10
  let (_, b) ← b.store none r ten
  let (_, b) ← b.br none done
  let (twenty, b) ← intConst (b.goTo (.append onFalse)) 20
  let (_, b) ← b.store none r twenty
  let (_, b) ← b.br none done
  let (rv, b) ← (b.goTo (.append done)).load none r
  let (_, b) ← b.retValue none rv
  addTo m b

def scaledSum (m : Module) : Checked Module := do
  let b : Builder := { func := .new "scaled_sum" ⟨[i32], some i32⟩ }
  let n ← b.func.paramAt 0
  let b := b.withFlow (b.flow.setName n "n")
  let (entry, b) ← namedBlock b "entry"
  let (cond, b) ← namedBlock b "for.cond"
  let (body, b) ← namedBlock b "for.body"
  let (done, b) ← namedBlock b "for.end"
  let (s, b) ← (b.goTo (.append entry)).alloca (some "s") i32
  let (i, b) ← b.alloca (some "i") i32
  let (zero, b) ← intConst b 0
  let (_, b) ← b.store none s zero
  let (_, b) ← b.store none i zero
  let (_, b) ← b.br none cond
  let (iv, b) ← (b.goTo (.append cond)).load none i
  let (c, b) ← b.binary none .slt iv n
  let (_, b) ← b.brCond none c body done
  let (iv, b) ← (b.goTo (.append body)).load none i
  let (four, b) ← intConst b 4
  let (scaled, b) ← b.binary none .mul iv four
  let (sv, b) ← b.load none s
  let (sum, b) ← b.binary none .add sv scaled
  let (_, b) ← b.store none s sum
  let (one, b) ← intConst b 1
  let (next, b) ← b.binary none .add iv one
  let (_, b) ← b.store none i next
  let (_, b) ← b.br none cond
  let (sv, b) ← (b.goTo (.append done)).load none s
  let (_, b) ← b.retValue none sv
  addTo m b

def constCall (m : Module) : Checked Module := do
  let sig : Signature := ⟨[i32], some i32⟩
  let b : Builder := { func := .new "square" sig }
  let x ← b.func.paramAt 0
  let (entry, b) ← namedBlock b "entry"
  let (sq, b) ← (b.goTo (.append entry)).binary none .mul x x
  let (_, b) ← b.retValue none sq
  let m ← addTo m b
  let b : Builder := { func := .new "forty_nine" ⟨[], some i32⟩ }
  let (square, flow) := b.flow.addImport "square" sig
  let (entry, b) ← namedBlock (b.withFlow flow) "entry"
  let (seven, b) ← intConst (b.goTo (.append entry)) 7
  let (call, b) ← b.call none square [seven]
  let result ← b.flow.result call
  let (_, b) ← b.retValue none result
  addTo m b

end Samples

namespace Sample

def all : List Sample :=
  [⟨"while-loop", "int count() \x7b int a = 0; while (a < 20) \x7b a = a + 1; \x7d return a; \x7d",
     Samples.whileLoop⟩,
    ⟨"redundant-mul", "int times_eight(int x) \x7b return x * 4 + x * 4; \x7d",
     Samples.redundantMul⟩,
    ⟨"const-branch", "int pick() \x7b int r; if (1) r = 10; else r = 20; return r; \x7d",
     Samples.constBranch⟩,
    ⟨"scaled-sum",
     "int scaled_sum(int n) \x7b int s = 0; for (int i = 0; i < n; i++) s += i * 4; return s; \x7d",
     Samples.scaledSum⟩,
    ⟨"const-call",
     "int square(int x) \x7b return x * x; \x7d int forty_nine() \x7b return square(7); \x7d",
     Samples.constCall⟩]

def lookup? (name : String) : Option Sample := all.find? (·.name = name)

end Sample

end MiddleEnd
