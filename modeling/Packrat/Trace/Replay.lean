import Packrat.Explain
import Packrat.Trace.Buffer

/-!
# Explaining a parse from its trace

The records of a parse tell all that an explanation needs, apart from the grammar and the input. So
a report can be made after the fact: the explainer follows the newest parse of a buffer as it would
have followed the parse itself.
-/

namespace Packrat

/-- Follows a record of a parse of `input`. -/
def Explainer.replay (g : Grammar) (input : List UInt8) (x : Explainer) (r : Trace.Record) :
    Explainer :=
  match r.note with
  | .parseStart _ _ => start g input
  | .parseEnd _ error => x.finish error
  | .enter _ _ => x.enter
  | .matched _ _ _ => x.matched
  | .failed node start _ position => x.failed node start position
  | .memoHit _ _ | .aborted _ => x

/-- The report of the newest parse in a buffer, if it failed. -/
def Report.ofTrace (buffer : Trace.Buffer) (g : Grammar) (input : List UInt8) : Option Report :=
  buffer.newestParse?.bind fun parse =>
    ((buffer.ofParse parse).foldl (Explainer.replay g input) Explainer.new).report

end Packrat
