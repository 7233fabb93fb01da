import SqlTree.Kind.Basic

/-!
# Sets of terminals

A set of kinds as a number: bit `i` says whether the kind with number `i` is a member.
-/

namespace SqlTree

structure TerminalSet where
  bits : Nat
  deriving DecidableEq, Repr

namespace TerminalSet

def empty : TerminalSet := ⟨0⟩

def contains (s : TerminalSet) (kind : Kind) : Bool := s.bits.testBit kind.id

def insert (s : TerminalSet) (kind : Kind) : TerminalSet := ⟨s.bits ||| (1 <<< kind.id)⟩

def singleton (kind : Kind) : TerminalSet := empty.insert kind

def union (s t : TerminalSet) : TerminalSet := ⟨s.bits ||| t.bits⟩

def isEmpty (s : TerminalSet) : Bool := s.bits == 0

/-- Whether `t` has a member that `s` lacks. -/
def grows (s t : TerminalSet) : Bool := (s.union t).bits != s.bits

/-- The terminals of the set, in the order of their numbers. -/
def toList (s : TerminalSet) : List Kind := Kind.terminals.filter s.contains

/-! ## Members -/

@[simp]
theorem contains_empty (kind : Kind) : empty.contains kind = false := by
  simp [contains, empty]

@[simp]
theorem contains_union (s t : TerminalSet) (kind : Kind) :
    (s.union t).contains kind = (s.contains kind || t.contains kind) := by
  simp [contains, union, Nat.testBit_or]

@[simp]
theorem contains_insert (s : TerminalSet) (added kind : Kind) :
    (s.insert added).contains kind = (s.contains kind || decide (added = kind)) := by
  have hbit : (1 <<< added.id).testBit kind.id = decide (added = kind) := by
    rw [Nat.one_shiftLeft, Nat.testBit_two_pow]
    by_cases h : added = kind
    · simp [h]
    · have hid : ¬ added.id = kind.id := fun e => h (Kind.id_injective e)
      simp [h, hid]
  simp [contains, insert, Nat.testBit_or, hbit]

end TerminalSet
end SqlTree
