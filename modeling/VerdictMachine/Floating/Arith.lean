import VerdictMachine.Floating.Rounding

/-!
# Floating-point arithmetic

Operations are exact on data and rounded once when the result is written.
-/

set_option autoImplicit false

namespace VerdictMachine

inductive FloatOp where
  | add | sub | mul | div
  deriving DecidableEq, Repr

inductive FloatRelation where
  | eq | lt
  deriving DecidableEq, Repr

namespace Datum

def signed (negative : Bool) (x : Rat) : Rat := if negative then -x else x

def neg : Datum → Datum
  | .nan => .nan
  | .infinity s => .infinity !s
  | .finite s x => .finite (!s) x

/-- A sum that cancels is a positive zero; two negative zeros keep their sign. -/
def add : Datum → Datum → Datum
  | .nan, _ | _, .nan => .nan
  | .infinity s, .infinity t => if s = t then .infinity s else .nan
  | .infinity s, .finite .. => .infinity s
  | .finite .., .infinity t => .infinity t
  | .finite s x, .finite t y =>
    let sum := signed s x + signed t y
    if sum = 0 then .finite (s && t) 0
    else if sum < 0 then .finite true (-sum) else .finite false sum

def mul : Datum → Datum → Datum
  | .nan, _ | _, .nan => .nan
  | .infinity s, .infinity t => .infinity (s != t)
  | .infinity s, .finite t y => if y = 0 then .nan else .infinity (s != t)
  | .finite s x, .infinity t => if x = 0 then .nan else .infinity (s != t)
  | .finite s x, .finite t y => .finite (s != t) (x * y)

def div : Datum → Datum → Datum
  | .nan, _ | _, .nan => .nan
  | .infinity _, .infinity _ => .nan
  | .infinity s, .finite t _ => .infinity (s != t)
  | .finite s _, .infinity t => .finite (s != t) 0
  | .finite s x, .finite t y =>
    if y = 0 then (if x = 0 then .nan else .infinity (s != t)) else .finite (s != t) (x / y)

/-- A datum that is no number is equal to nothing. -/
def equal : Datum → Datum → Bool
  | .infinity s, .infinity t => s == t
  | .finite s x, .finite t y => signed s x == signed t y
  | _, _ => false

/-- A datum that is no number is less than nothing, and nothing is less than it. -/
def less : Datum → Datum → Bool
  | .nan, _ | _, .nan => false
  | .infinity s, .infinity t => s && !t
  | .infinity s, .finite .. => s
  | .finite .., .infinity t => !t
  | .finite s x, .finite t y => signed s x < signed t y

end Datum

def FloatOp.apply : FloatOp → Datum → Datum → Datum
  | .add, a, b => a.add b
  | .sub, a, b => a.add b.neg
  | .mul, a, b => a.mul b
  | .div, a, b => a.div b

def FloatRelation.holds : FloatRelation → Datum → Datum → Bool
  | .eq, a, b => a.equal b
  | .lt, a, b => a.less b

namespace Format

/-- One operation on bit patterns, rounded once. -/
def arith (f : Format) (op : FloatOp) (a b : Nat) : Nat :=
  f.encode (op.apply (f.decode a) (f.decode b))

/-- The nearest pattern of another format. -/
def convert (f g : Format) (a : Nat) : Nat := g.encode (f.decode a)

end Format

end VerdictMachine
