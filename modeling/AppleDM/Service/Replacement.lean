import AppleDM.Service.Core

set_option autoImplicit false

namespace AppleDM.Service.Core

open Mdm Storage Effect

variable (c : Core)

def replacement (r : Request) : Action (Option (Replacement × String)) :=
  match c.replacements, r.certificate with
  | true, some cert => do
    let found ← perform fun s =>
      s.transitionReplacement r.id.device { op := .read, atTime := c.now }
    match found with
    | .ok attempt => pure (attempt.map fun x => (x, c.fingerprint cert))
    | .error error =>
      if error.sentinel = .notFound then pure none else throw (internalFailure error)
  | _, _ => pure none

def transitionReplacement (r : Request) (ch : ReplacementChange) : Action (Option Replacement) := do
  let moved ← perform fun s => s.transitionReplacement r.id.device { ch with atTime := c.now }
  let x ← orFail moved
  if x.any (·.state = .committed) then c.publish .certRotated r.id.device "device"
  pure x

def candidateChange (r : Request) (ck : Checkin) (x : Replacement) (hash : String) :
    Action ReplacementChange :=
  match ck.message with
  | some (.authenticate _) =>
    if r.id.channel.isUser then throw (forbidden .certMismatch)
    else pure { id := x.id, hash := hash, op := .authenticate, raw := ck.raw, atTime := c.now }
  | some (.tokenUpdate m) => do
    let state ← query fun s => s.userAuthOf r.id
    let known := match state with
      | .ok state => decide (state.authToken ≠ "")
      | .error _ => false
    refuseIf (c.requireUserAuth = true ∧ r.id.channel = .user ∧ known = false)
      (forbidden .userAuthRequired)
    pure
      { id := x.id, hash := hash, op := .token, atTime := c.now
        token := some ⟨r.id, some m, ck.raw⟩ }
  | _ => throw (forbidden .certMismatch)

def isAuthenticate (ck : Checkin) : Bool :=
  match ck.message with
  | some (.authenticate _) => true
  | _ => false

def replacementCheckin (r : Request) (ck : Checkin) : Action Bool := do
  match ← c.replacement r with
  | none => pure false
  | some (x, hash) =>
    if x.state ≠ .pending then
      if hash = x.candidateHash then
        if x.state ≠ .committed then throw (forbidden .certMismatch)
        else pure (isAuthenticate ck && !r.id.channel.isUser)
      else pure false
    else if hash = x.oldHash then pure (isAuthenticate ck && !r.id.channel.isUser)
    else if x.candidateHash = "" ∨ hash ≠ x.candidateHash then throw (forbidden .certMismatch)
    else do
      let ch ← c.candidateChange r ck x hash
      let _ ← c.transitionReplacement r ch
      pure true

def finishUnrelated (r : Request) (resp : Response) (x : Replacement) (hash : String) :
    Action Unit :=
  if resp.isIdle then pure ()
  else if hash ≠ x.oldHash then throw (forbidden .certMismatch)
  else do
    match ← change fun s => s.storeResult c.decodeResponse r.id (some resp) c.now with
    | .ok _ => pure ()
    | .error error =>
      if error.sentinel = .notFound then pure () else throw (storageFailure error)

def replacementConnect (r : Request) (resp : Response) : Action (Option (Option Command)) := do
  match ← c.replacement r with
  | none => pure none
  | some (x, hash) =>
    if x.state ≠ .pending then pure none
    else if hash ≠ x.oldHash ∧ (x.candidateHash = "" ∨ hash ≠ x.candidateHash) then
      throw (forbidden .certMismatch)
    else if r.id.channel.isUser then
      pure (if hash = x.candidateHash then some none else none)
    else if resp.isIdle = false ∧ resp.commandUUID = x.command.uuid then do
      let _ ← c.transitionReplacement r
        { op := .result, id := x.id, hash := hash, response := some resp, atTime := c.now }
      c.publish .commandResult r.id "device"
      pure (some none)
    else do
      c.finishUnrelated r resp x hash
      if x.acknowledged ∨ hash ≠ x.oldHash then pure (some none)
      else do
        let sent ← c.transitionReplacement r
          { op := .deliver, id := x.id, hash := hash, atTime := c.now }
        c.publish .commandSent r.id "server"
        pure (some (sent.map (·.command)))

end AppleDM.Service.Core
