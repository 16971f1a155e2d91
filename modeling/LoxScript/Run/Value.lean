import LoxScript.Literal

/-!
# Values

A value is either a literal value or refers to an object: a native function, a function with its captured
variables, a class or an instance. Objects are compared by identity, which is the number under which they are
kept.
-/

namespace LoxScript

/-- Functions that are not written in the language. All take no arguments. -/
inductive Native where
  /-- Seconds since a fixed moment. -/
  | clock
  /-- A function that does nothing; `id` tells apart those of one name. -/
  | idle (name : String) (id : Nat)
  deriving DecidableEq, Repr

def Native.name : Native → String
  | clock => "clock"
  | idle name _ => name

abbrev ClosureId := Nat
abbrev ClassId := Nat
abbrev InstanceId := Nat

inductive Value where
  | plain (l : Literal)
  | native (f : Native)
  | closureRef (id : ClosureId)
  | classRef (id : ClassId)
  | instanceRef (id : InstanceId)
  deriving DecidableEq, Repr

namespace Value

def nil : Value := plain .nil

def bool (b : Bool) : Value := plain (.bool b)

def number (x : Float) : Value := plain (.number x)

def string (s : String) : Value := plain (.string s)

instance : Inhabited Value := ⟨nil⟩

def isTruthy : Value → Bool
  | plain l => l.isTruthy
  | native _ | closureRef _ | classRef _ | instanceRef _ => true

/-- Equality as programs see it: by value for literal values, by identity for objects. -/
def equals : Value → Value → Bool
  | plain a, plain b => a.equals b
  | native f, native g => f == g
  | closureRef a, closureRef b => a == b
  | classRef a, classRef b => a == b
  | instanceRef a, instanceRef b => a == b
  | _, _ => false

end Value

/-- What a variable holds. A variable declared without an initializer holds no value until it is assigned. -/
inductive Slot where
  | uninitialized
  | value (v : Value)
  deriving DecidableEq, Repr

end LoxScript
