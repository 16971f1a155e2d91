import LoxScript.Number.Notation

/-!
# Literal values

The values that source text can denote directly. `text` writes one as programs show it; a string is shown
between quotes, without any escapes.
-/

namespace LoxScript

inductive Literal where
  | nil
  | bool (b : Bool)
  | number (x : Float)
  | string (s : String)
  deriving DecidableEq, Repr, Inhabited

namespace Literal

def text : Literal → String
  | nil => "nil"
  | bool true => "true"
  | bool false => "false"
  | number x => Number.plainText x
  | string s => "\"" ++ s ++ "\""

def isTruthy : Literal → Bool
  | nil => false
  | bool b => b
  | number _ => true
  | string _ => true

/-- Values of different kinds are never equal. Numbers compare as numbers, so NaN differs from itself. -/
def equals : Literal → Literal → Bool
  | nil, nil => true
  | bool a, bool b => a == b
  | number x, number y => x == y
  | string s, string t => s == t
  | _, _ => false

end Literal

end LoxScript
