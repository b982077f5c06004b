import AppleDM.Service.Checkin

set_option autoImplicit false

namespace AppleDM.Service.Core

open Mdm Storage Effect

variable (c : Core)

def ineligible (id : EnrollmentID) (cmd : Command) : Action (Option Failure) :=
  match c.validatedCommand cmd with
  | some f => pure (some f)
  | none => do
    let checked ← query fun s => c.checkTarget s id cmd
    orFail checked

def nextEligible (id : EnrollmentID) (skipNotNow : Bool) : Nat → Action (Option Command)
  | 0 => pure none
  | rounds + 1 => do
    let taken ← perform fun s => s.next id skipNotNow c.now
    match ← orFail taken with
    | none => pure none
    | some cmd => do
      match ← c.ineligible id cmd with
      | none => pure (some cmd)
      | some _ => do
        let cleared ← perform fun s => s.clearCommand id cmd.uuid c.now
        let _ ← orFail cleared
        c.publish .commandRejected id "server"
        nextEligible id skipNotNow rounds

def recordResult (r : Request) (resp : Response) : Action Unit :=
  if resp.isIdle then pure ()
  else do
    match ← change fun s => s.storeResult c.decodeResponse r.id (some resp) c.now with
    | .ok _ =>
      match c.observeResult with
      | none => pure ()
      | some observer =>
        tryCatch (observer r.id resp c.now) fun f => throw (wrapCode .internal f)
    | .error error =>
      if error.sentinel = .notFound then pure () else throw (storageFailure error)
    c.publish .commandResult r.id "device"

def runObservers (r : Request) : Action Unit := do
  match c.observeEnrollment with
  | none => pure ()
  | some observer => tryCatch (observer r.id) fun f => throw (wrapCode .internal f)
  match c.observeCertificate, r.certificate with
  | some observer, some cert => observer r.id cert c.now
  | _, _ => pure ()

def deliver (r : Request) (resp : Response) : Action (Option Command) := do
  c.recordResult r resp
  let rounds ← query fun s => (s.queueAt r.id.id).length + 1
  let cmd ← c.nextEligible r.id (resp.status = .notNow) rounds
  let touched ← change fun s => s.touchLastSeen r.id c.now
  orFail touched
  c.runObservers r
  if cmd.isSome then c.publish .commandSent r.id "server" else pure ()
  pure cmd

def connect (r : Request) (resp : Response) : Action (Option Command) := do
  match ← c.replacementConnect r resp with
  | some cmd => pure cmd
  | none => do
    c.authorize r
    c.deliver r resp

def handleConnect (request : Option Request) (resp : Option Response) : Action (Option Command) :=
  match request, resp with
  | some request, some resp => do
    let r := { request with id := resp.id }
    c.checkStatus r
    c.runHooks { op := "connect", request := r }
    c.connect r resp
  | _, _ => throw (invalidMessage "nil request or response")

end AppleDM.Service.Core
