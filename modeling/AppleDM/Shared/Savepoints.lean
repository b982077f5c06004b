import Mathlib.Logic.Basic
import Mathlib.Data.List.Basic

set_option autoImplicit false

-- An SQL transaction: what it has written so far, and its savepoints, the latest first.
namespace AppleDM.Savepoints

variable {Name Write : Type} [DecidableEq Name]

structure Tx (Name Write : Type) where
  writes : List Write := []
  marks : List (Name × List Write) := []

namespace Tx

def write (tx : Tx Name Write) (value : Write) : Tx Name Write :=
  { tx with writes := tx.writes ++ [value] }

def savepoint (tx : Tx Name Write) (name : Name) : Tx Name Write :=
  { tx with marks := (name, tx.writes) :: tx.marks }

def upTo (name : Name) (marks : List (Name × List Write)) : List (Name × List Write) :=
  marks.dropWhile fun mark => mark.1 ≠ name

def rollbackTo (tx : Tx Name Write) (name : Name) : Option (Tx Name Write) :=
  match upTo name tx.marks with
  | [] => none
  | mark :: marks => some { writes := mark.2, marks := mark :: marks }

def release (tx : Tx Name Write) (name : Name) : Option (Tx Name Write) :=
  match upTo name tx.marks with
  | [] => none
  | _ :: marks => some { tx with marks }

theorem upTo_append {name : Name} {extra marks : List (Name × List Write)} {saved : List Write}
    (fresh : ∀ mark ∈ extra, mark.1 ≠ name) :
    upTo name (extra ++ (name, saved) :: marks) = (name, saved) :: marks := by
  induction extra with
  | nil => simp [upTo]
  | cons mark extra hypothesis =>
    have other : mark.1 ≠ name := fresh mark (by simp)
    rw [List.cons_append, upTo, List.dropWhile_cons_of_pos (by simpa using other)]
    exact hypothesis fun later member => fresh later (by simp [member])

end Tx

end AppleDM.Savepoints
