import Bellbook.Lib.Json
import Bellbook.Lib.Worklist
import Bellbook.Lib.PostOrder
import Bellbook.Lib.Slots
import Bellbook.Lib.Kahn
import Bellbook.Lib.BreadthFirst
import Bellbook.Lib.Sha256
import Bellbook.Lib.FixedWidth
import Bellbook.Base.Canonical
import Bellbook.Base.ReadBack
import Bellbook.Base.Hash
import Bellbook.Base.Serde
import Bellbook.Base.Encoding
import Bellbook.Base.Conformance
import Bellbook.Base.RoundTrip
import Bellbook.Record.Kind
import Bellbook.Record.Payloads
import Bellbook.Record.Record
import Bellbook.State.State
import Bellbook.State.Incremental
import Bellbook.State.Build
import Bellbook.Verify.Rules
import Bellbook.Verify.Prior
import Bellbook.Verify.Activity
import Bellbook.Verify.Plans
import Bellbook.Verify.Evolution
import Bellbook.Verify.RecordChecks
import Bellbook.Verify.Standing
import Bellbook.Verify.Replay
import Bellbook.Verify.Locality
import Bellbook.Verify.Run
import Bellbook.Verify.History
import Bellbook.Verify.Frozen
import Bellbook.Verify.Binding
import Bellbook.Verify.Reference
import Bellbook.Verify.Specification
import Bellbook.Verify.Checkpoint
import Bellbook.Verify.Rejections
import Bellbook.Verify.Taint
import Bellbook.Verify.Permanence
import Bellbook.Verify.Evidence
import Bellbook.Verify.Authority
import Bellbook.Verify.Grants
import Bellbook.Verify.SingleUse
import Bellbook.Verify.Lifecycle
import Bellbook.Verify.Noninterference
import Bellbook.Verify.Closing
import Bellbook.Verify.Authentication
import Bellbook.Verify.Lineage
import Bellbook.Verify.Acyclic
import Bellbook.Verify.Soundness
import Bellbook.Verify.Temporal
import Bellbook.Verify.Requirements
import Bellbook.Verify.Tamper
import Bellbook.Verify.Forms
import Bellbook.Verify.Registers
import Bellbook.Verify.Work
import Bellbook.Verify.Retractions
import Bellbook.Log.Storage
import Bellbook.Log.Writer
import Bellbook.Log.Commit
import Bellbook.Log.Agreement
import Bellbook.Log.Frames
import Bellbook.Log.Recovery
import Bellbook.Log.Batch
import Bellbook.Log.ExactlyOnce
import Bellbook.Log.Reader
import Bellbook.Log.Atomicity
import Bellbook.Log.Materialize
import Bellbook.Receipt.Codec
import Bellbook.Receipt.Receipt
import Bellbook.Receipt.Profiles
import Bellbook.Receipt.Validate
import Bellbook.Receipt.Attestation
import Bellbook.Receipt.Timestamp
import Bellbook.Queries.Queries
import Bellbook.Queries.Accepted
import Bellbook.Queries.Descent
import Bellbook.Queries.Decisions
import Bellbook.Queries.Listings
import Bellbook.Queries.Evidence
import Bellbook.Queries.Growth
import Bellbook.Cli.Arguments
import Bellbook.Cli.Lineage
import Bellbook.Receipt.Delivery
import Bellbook.Receipt.Declarations
import Bellbook.Receipt.Tiers
import Bellbook.Receipt.Rebuild
import Bellbook.Receipt.EpochV03
import Bellbook.Receipt.Backward
import Bellbook.Receipt.Strict
import Bellbook.Manifest.Manifest
import Bellbook.Manifest.Worktree
import Bellbook.Manifest.Contract
import Bellbook.Context.Context
