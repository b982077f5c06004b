import AppleDM.Sql.QueueRun
import AppleDM.Sql.RoundTrip
import AppleDM.Service.Race
import AppleDM.Inmem.Isolation
import AppleDM.Ddm.StatusRun
import AppleDM.Ddm.StatusPages
import AppleDM.Jose.Splits
import AppleDM.Json.NormalForm
import AppleDM.Cbor.KeyOrder
import AppleDM.Cbor.RoundTrip
import AppleDM.Acme.Identifier
import AppleDM.Scep.Issuance
import AppleDM.Revocation.Publication
import AppleDM.Crypt.Blobs
import AppleDM.RateLimit.Law
import AppleDM.Sql.UnitOfWork
import AppleDM.EventStore.Outbox
import AppleDM.Pki.Lifecycle.Rollover
import AppleDM.AdminAuth.Lockout
import AppleDM.AdminAuth.Authorize
import AppleDM.Proxywire.Replay
import AppleDM.AccountDriven.Chains
import AppleDM.Ddm.Token
import AppleDM.Ddm.Publication
import AppleDM.Ddm.StatusWalk
import AppleDM.Inmem.History
import AppleDM.Inventory.Flatten
import AppleDM.Dep.Dedupe
import AppleDM.ActivationLock.Bypass
