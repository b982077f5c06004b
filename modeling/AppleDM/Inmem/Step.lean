import AppleDM.Inmem.Queue
import AppleDM.Inmem.Migration

set_option autoImplicit false

namespace AppleDM.Inmem

open Mdm Storage Checked Run

inductive Op where
  | authenticateEnrollment (id : EnrollmentID) (c : AuthenticateChange)
  | upsertAuthenticate (id : EnrollmentID) (msg : Option Authenticate) (raw : Bytes)
      (atTime : Time)
  | storeTokenUpdate (id : EnrollmentID) (push : Push) (msg : Option TokenUpdate) (raw : Bytes)
      (atTime : Time)
  | disable (id : EnrollmentID) (atTime : Time)
  | touchLastSeen (id : EnrollmentID) (atTime : Time)
  | enqueue (ids : List EnrollmentID) (cmd : Option Command) (o : EnqueueOptions) (clock : Time)
  | next (id : EnrollmentID) (skipNotNow : Bool) (now : Time)
  | storeResult (id : EnrollmentID) (resp : Option Response) (now : Time)
  | clear (id : EnrollmentID) (f : ClearFilter) (now : Time)
  | clearCommand (id : EnrollmentID) (uuid : String) (now : Time)
  | associateCert (id : EnrollmentID) (hash : String) (atTime : Time)
  | storeBootstrapToken (id : EnrollmentID) (token : Bytes) (atTime : Time)
  | storeUserAuthChallenge (id : EnrollmentID) (challenge : String) (raw : Bytes) (atTime : Time)
  | storeUserAuthToken (id : EnrollmentID) (token : String) (raw : Bytes) (atTime : Time)
  | clearUserAuth (id : EnrollmentID)
  | transitionReplacement (id : EnrollmentID) (change : ReplacementChange)
  | importRecord (rec : EnrollmentExport)

def Op.plain : Op → Bool
  | .storeTokenUpdate .. | .disable .. | .touchLastSeen .. | .enqueue .. | .next ..
  | .storeResult .. | .clear .. | .clearCommand .. => true
  | _ => false

namespace Store

variable (decodeResponse : DecodeResponse)

def apply (s : Store) : Op → Except StoreError Store
  | .authenticateEnrollment id c => (·.1) <$> s.authenticateEnrollment id c
  | .upsertAuthenticate id msg raw atTime => s.upsertAuthenticate id msg raw atTime
  | .storeTokenUpdate id push msg raw atTime => s.storeTokenUpdate id push msg raw atTime
  | .disable id atTime => s.disable id atTime
  | .touchLastSeen id atTime => s.touchLastSeen id atTime
  | .enqueue ids cmd o clock => (·.1) <$> s.enqueue ids cmd o clock
  | .next id skipNotNow now => (·.1) <$> s.next id skipNotNow now
  | .storeResult id resp now => s.storeResult decodeResponse id resp now
  | .clear id f now => (·.1) <$> s.clear id f now
  | .clearCommand id uuid now => (·.1) <$> s.clearCommand id uuid now
  | .associateCert id hash atTime => s.associateCert id hash atTime
  | .storeBootstrapToken id token atTime => s.storeBootstrapToken id token atTime
  | .storeUserAuthChallenge id challenge raw atTime =>
    s.storeUserAuthChallenge id challenge raw atTime
  | .storeUserAuthToken id token raw atTime => s.storeUserAuthToken id token raw atTime
  | .clearUserAuth id => s.clearUserAuth id
  | .transitionReplacement id change => (·.1) <$> s.transitionReplacement id change
  | .importRecord rec => s.importRecord rec

def step (s : Store) (op : Op) : Store := settle s (s.apply decodeResponse op)

end Store

end AppleDM.Inmem
