import Packrat.Main
import Packrat.Handle.Shelf
import Packrat.MessagePack.Reader
import Packrat.Proofs.Grammar.WellFormed
import Packrat.Proofs.Walk.Memory
import Packrat.Proofs.Semantics.Adequacy
import Packrat.Proofs.Semantics.Decimal
import Packrat.Proofs.Bencode.Canonical
import Packrat.Proofs.Walk.Positions
import Packrat.Proofs.Walk.Furthest
import Packrat.Proofs.Handle.Charges
import Packrat.Proofs.Walk.Once
import Packrat.Proofs.Grammar.Acceptance
import Packrat.Proofs.Walk.Limit
import Packrat.Proofs.Semantics.Lossless
import Packrat.Proofs.Grammar.Layers
import Packrat.Proofs.Trace.Replay
import Packrat.Proofs.Semantics.Progress
import Packrat.Proofs.Semantics.Events
import Packrat.Proofs.Bencode.Progress
import Packrat.Proofs.Bencode.Failures
import Packrat.Proofs.Bencode.Truncation
import Packrat.Proofs.Trace.Session
import Packrat.Proofs.Explain.Memory
import Packrat.Proofs.Trace.Eviction
import Packrat.Proofs.Grammar.Preorder
import Packrat.Proofs.Semantics.Counts
import Packrat.Proofs.Semantics.Separators
import Packrat.Proofs.Session.Traces
import Packrat.Proofs.Explain.Excerpt
import Packrat.Proofs.Bencode.Generation
import Packrat.Proofs.Semantics.DecimalLimits
import Packrat.Proofs.Trace.JsonTrace
import Packrat.Proofs.Trace.Retention
import Packrat.Proofs.Semantics.Loops
import Packrat.Proofs.Semantics.Integers
import Packrat.Proofs.Token.Display
