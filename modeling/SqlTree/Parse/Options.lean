/-!
# Options

The limits of looking ahead and of repairs.
-/

namespace SqlTree

structure Options where
  /-- Tokens looked at for each of several possible actions. -/
  ambiguityLookahead : Nat := 16
  /-- Steps of the automaton in one simulation. -/
  stepBudget : Nat := 512
  /-- Tokens after a repair that have to fit. -/
  recoveryValidation : Nat := 2
  /-- Missing tokens that may be put in at one place. -/
  maxInsertions : Nat := 3
  deriving DecidableEq, Repr

namespace Options

/-- The same options with another number of tokens to look at, but at least one. -/
def withLookahead (options : Options) (tokens : Nat) : Options :=
  { options with ambiguityLookahead := max tokens 1 }

/-- The steps allowed in one simulation. -/
def simulationSteps (options : Options) : Nat :=
  max options.stepBudget options.ambiguityLookahead

end Options
end SqlTree
