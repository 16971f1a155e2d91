/-!
# Errors of a running program

A runtime error has a cause and belongs to the token at which it arose.
-/

namespace LoxScript

inductive RuntimeCause where
  | operandNotNumber
  | operandsNotNumbers
  | operandsNotAddable
  | superclassNotClass
  | noProperties
  | noFields
  | wrongArity (expected given : Nat)
  | notCallable
  | undefinedVariable (name : String)
  | uninitializedVariable (name : String)
  | undefinedProperty (name : String)
  | divisionByZero
  | other (message : String)
  deriving DecidableEq, Repr

namespace RuntimeCause

def message : RuntimeCause → String
  | operandNotNumber => "Operand must be a number."
  | operandsNotNumbers => "Operands must be numbers."
  | operandsNotAddable => "Operands must be two numbers or two strings."
  | superclassNotClass => "Superclass must be a class."
  | noProperties => "Only instances have properties."
  | noFields => "Only instances have fields."
  | wrongArity expected given =>
      "Expected " ++ toString expected ++ " arguments but got " ++ toString given ++ "."
  | notCallable => "Can only call functions and classes."
  | undefinedVariable name => "Undefined variable '" ++ name ++ "'."
  | uninitializedVariable name => "Uninitialized variable '" ++ name ++ "'."
  | undefinedProperty name => "Undefined property '" ++ name ++ "'."
  | divisionByZero => "Division by zero."
  | other message => message

inductive Family where
  | operand | arity | callability | undefinedVariable | uninitializedVariable | undefinedProperty
  | division | unspecific
  deriving DecidableEq, Repr

def family : RuntimeCause → Family
  | operandNotNumber | operandsNotNumbers | operandsNotAddable => .operand
  | superclassNotClass | noProperties | noFields => .operand
  | wrongArity _ _ => .arity
  | notCallable => .callability
  | undefinedVariable _ => .undefinedVariable
  | uninitializedVariable _ => .uninitializedVariable
  | undefinedProperty _ => .undefinedProperty
  | divisionByZero => .division
  | other _ => .unspecific

end RuntimeCause

structure RuntimeError where
  cause : RuntimeCause
  /-- The text of the offending token. -/
  lexeme : String
  line : Int
  deriving DecidableEq, Repr

def RuntimeError.message (e : RuntimeError) : String :=
  e.cause.message

end LoxScript
