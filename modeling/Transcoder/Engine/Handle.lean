import Transcoder.Engine.Run

/-!
# Handles: engines that can be let go

A handle owns an engine until `destroy`; after that it refuses every request.
-/
namespace Transcoder

/-- An engine, until it is let go (`DecompressorHandle`). -/
structure Handle where
  engine : Option Engine

namespace Handle

/-- A handle on a new engine (`DecompressorHandle.create`). -/
def create (schema : Schema) (config : Config) : Handle := ⟨some (.new schema config)⟩

/-- The answer to a request, and the handle after it (`DecompressorHandle.live`). -/
def perform (h : Handle) (request : Engine.Request) : Engine.Answer × Handle :=
  match h.engine with
  | none => (.refused .disposed, h)
  | some e => (e.perform request).map id fun e => ⟨some e⟩

/-- The state of the engine (`DecompressorHandle.state`). -/
def status (h : Handle) : Except Failure Status :=
  match h.engine with
  | none => .error .disposed
  | some e => .ok e.status

/-- Lets the engine go (`DecompressorHandle.destroy`). -/
def destroy (_ : Handle) : Handle := ⟨none⟩

/-- The engine was let go (`DecompressorHandle.is_disposed`). -/
def disposed (h : Handle) : Bool := h.engine.isNone

end Handle

end Transcoder
