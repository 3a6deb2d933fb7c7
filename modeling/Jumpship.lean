import Jumpship.Proofs.ClientCanonicalization
import Jumpship.Proofs.TypedDigest
import Jumpship.Proofs.FailClosed
import Jumpship.Proofs.TrafficAuthority
import Jumpship.Proofs.StreamFraming
import Jumpship.Proofs.PyJson
import Jumpship.Proofs.Journal
import Jumpship.Proofs.Compatibility
import Jumpship.Proofs.Boundaries
import Jumpship.Proofs.Catalog
import Jumpship.Canonical.Registry
import Jumpship.Client.Registry
import Jumpship.Lib.Chains
import Jumpship.Lib.Confinement
import Jumpship.Proofs.Extraction
import Jumpship.Proofs.Supersession
import Jumpship.Lib.Literals
import Jumpship.Proofs.Escapes
import Jumpship.Canonical.Signature
import Jumpship.Client.Signature
import Jumpship.Client.Time
import Jumpship.Codegen.Patterns
import Jumpship.DependencyLocks.Integrity
import Jumpship.DependencyLocks.Lockfile
import Jumpship.DependencyLocks.Requests
import Jumpship.Lib.Der
import Jumpship.Proofs.Domains
import Jumpship.Proofs.Instants
import Jumpship.Proofs.Lockfile
import Jumpship.Proofs.Patterns
import Jumpship.Proofs.Requests
import Jumpship.Proofs.SignatureBase64
import Jumpship.Proofs.SignatureDer
import Jumpship.Proofs.Totality
import Jumpship.Architecture.Jsonc
import Jumpship.Capabilities.LivingSource
import Jumpship.Capabilities.ValidateSchema
import Jumpship.Codegen.Requests
import Jumpship.Codegen.ReturnPaths
import Jumpship.Connect.Envelopes
import Jumpship.Js.Location
import Jumpship.Lib.Fallible
import Jumpship.Lib.Jsonc
import Jumpship.Lib.Reference
import Jumpship.Lib.Suffixes
import Jumpship.Lib.Topological
import Jumpship.Packets.Commands
import Jumpship.Proofs.EnvelopeCodec
import Jumpship.Proofs.FilledTemplates
import Jumpship.Proofs.GoRequests
import Jumpship.Proofs.HookReachability
import Jumpship.Proofs.Jsonc
import Jumpship.Proofs.LivingSource
import Jumpship.Proofs.RequestPaths
import Jumpship.Proofs.ReturnPaths
import Jumpship.Proofs.SchemaAgreement
import Jumpship.Js.Strings
import Jumpship.Lib.Expressions
import Jumpship.Lib.Shell
import Jumpship.Lib.Sorting
import Jumpship.Proofs.MemberOrder
import Jumpship.Proofs.WorkflowPolicy
import Jumpship.Canonical.Detached
import Jumpship.Client.Detached
import Jumpship.Proofs.ContractValues
import Jumpship.Proofs.DetachedAgreement
