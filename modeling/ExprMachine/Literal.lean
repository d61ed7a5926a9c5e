import ExprMachine.Number.Binary64

/-!
# Literals

Constants as they are written, in expressions and in assembly: a string is its bytes, not yet a
place in a heap.
-/

namespace ExprMachine

/-- A constant as written. -/
inductive Literal where
  | nil
  | bool (b : Bool)
  | number (x : Binary64)
  | string (bytes : List UInt8)
  deriving DecidableEq, Repr, Inhabited

/-- Whether a literal takes a place among a chunk's constants. The others have instructions of
their own. -/
def Literal.isPooled : Literal → Bool
  | number _ => true
  | string _ => true
  | _ => false

end ExprMachine
