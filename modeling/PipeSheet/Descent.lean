/-!
# PipeSheet.Descent

**A descent counts levels down to 0, however many there are.**

It may be told to fail at a level. The levels that are left are the recursion's argument and nothing
is left to do behind it, so a descent of any depth takes the same room.
-/

namespace PipeSheet

/-- Descends from a level, of `depth` levels in all. -/
def descendFrom (depth : Nat) (failAt : Option Nat) : Nat → Except Nat Nat
  | 0 => if failAt = some 0 then .error 0 else .ok depth
  | level + 1 =>
    if failAt = some (level + 1) then .error (level + 1) else descendFrom depth failAt level

/-- Descends `depth` levels: the depth, or the level at which the descent failed. -/
def descend (depth : Nat) (failAt : Option Nat) : Except Nat Nat :=
  descendFrom depth failAt depth

/-- A descent fails exactly at a level that it comes to. -/
theorem descendFrom_eq (depth : Nat) (failAt : Option Nat) (level : Nat) :
    descendFrom depth failAt level =
      match failAt with
      | some n => if n ≤ level then .error n else .ok depth
      | none => .ok depth := by
  induction level with
  | zero =>
    cases failAt with
    | none => simp [descendFrom]
    | some n =>
      by_cases h : n = 0
      · simp [descendFrom, h]
      · simp [descendFrom, h]
  | succ level ih =>
    rw [descendFrom, ih]
    cases failAt with
    | none => simp
    | some n =>
      by_cases h : n = level + 1
      · simp [h]
      · simp only [Option.some.injEq, h, if_false]
        have : n ≤ level ↔ n ≤ level + 1 := by omega
        simp [this]

end PipeSheet
