import AppleDM.Ddm.Status

set_option autoImplicit false

namespace AppleDM.Ddm

open Mdm Checked Run

inductive Op where
  | putDeclaration (d : Option Declaration)
  | deleteDeclaration (identifier : String)
  | pruneVersions
  | putSet (name : String) (atTime : Time)
  | deleteSet (name : String)
  | addSetDeclaration (set identifier : String) (atTime : Time)
  | removeSetDeclaration (set identifier : String)
  | assignSet (id : EnrollmentID) (set : String)
  | unassignSet (id : EnrollmentID) (set : String)
  | assignDeclaration (id : EnrollmentID) (identifier : String)
  | unassignDeclaration (id : EnrollmentID) (identifier : String)
  | putSnapshot (s : Option Snapshot)
  | putStatus (id : EnrollmentID) (u : StatusUpdate)
  | recordChanges (ids : List EnrollmentID) (reason : String) (atTime : Time)
  | completeChanges (seqs : List Nat)
  | failChanges (seqs : List Nat) (msg : String) (nextAttempt : Time)
  | clearEnrollment (id : EnrollmentID)

namespace State

def apply (st : State) : Op → Except Error State
  | .putDeclaration d => (·.1) <$> st.putDeclaration d
  | .deleteDeclaration identifier => st.deleteDeclaration identifier
  | .pruneVersions => .ok st.pruneVersions.1
  | .putSet name atTime => (·.1) <$> st.putSet name atTime
  | .deleteSet name => st.deleteSet name
  | .addSetDeclaration set identifier atTime => (·.1) <$> st.addSetDeclaration set identifier atTime
  | .removeSetDeclaration set identifier => (·.1) <$> st.removeSetDeclaration set identifier
  | .assignSet id set => (·.1) <$> st.assignSet id set
  | .unassignSet id set => (·.1) <$> st.unassignSet id set
  | .assignDeclaration id identifier => (·.1) <$> st.assignDeclaration id identifier
  | .unassignDeclaration id identifier => (·.1) <$> st.unassignDeclaration id identifier
  | .putSnapshot s => st.putSnapshot s
  | .putStatus id u => (·.1) <$> st.putStatus id u
  | .recordChanges ids reason atTime => st.recordChanges ids reason atTime
  | .completeChanges seqs => .ok (st.completeChanges seqs)
  | .failChanges seqs msg nextAttempt => .ok (st.failChanges seqs msg nextAttempt)
  | .clearEnrollment id => st.clearEnrollment id

end State

/-- What runs inside `Update`: it looks at its private copy, calls the store on it as often as it
likes, whatever the calls return, and finally returns nil or an error. -/
inductive Callback where
  | finish (committed : Bool)
  | look (next : State → Callback)
  | call (op : Op) (next : Callback)

namespace Callback

def run : Callback → State → State × Bool
  | .finish committed, st => (st, committed)
  | .look next, st => (next st).run st
  | .call op next, st => next.run (settle st (st.apply op))

theorem run_invariant (Inv : State → Prop)
    (preserved : ∀ st st' op, Inv st → st.apply op = .ok st' → Inv st') (callback : Callback)
    {st : State} (held : Inv st) : Inv (callback.run st).1 := by
  induction callback generalizing st with
  | finish => exact held
  | look next ih => exact ih st held
  | call op next ih => exact ih (settle_preserves Inv held fun st' => preserved st st' op held)

end Callback

inductive Event where
  | call (op : Op)
  | update (callback : Callback)

namespace State

def step (st : State) : Event → State
  | .call op => settle st (st.apply op)
  | .update callback =>
    match callback.run st with
    | (copy, true) => copy
    | (_, false) => st

theorem step_invariant (Inv : State → Prop)
    (preserved : ∀ st st' op, Inv st → st.apply op = .ok st' → Inv st') {st : State}
    (held : Inv st) (event : Event) : Inv (st.step event) := by
  cases event with
  | call op => exact settle_preserves Inv held fun st' => preserved st st' op held
  | update callback =>
    have kept := Callback.run_invariant Inv preserved callback held
    simp only [step]
    split
    · next copy done =>
      rw [done] at kept
      exact kept
    · exact held

end State

end AppleDM.Ddm
