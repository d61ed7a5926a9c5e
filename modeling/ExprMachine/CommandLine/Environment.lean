/-!
# The environment

Named texts from outside of the program. Of several texts with one name the first counts.
-/

namespace ExprMachine

/-- Named texts. -/
abbrev Environment := List (String × String)

/-- Whether a name stands for a text that is not empty. -/
def Environment.isSet (environment : Environment) (name : String) : Bool :=
  match environment.lookup name with
  | some value => value ≠ ""
  | none => false

end ExprMachine
