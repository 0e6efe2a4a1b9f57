import KvEngine.Engine.Read
import KvEngine.Engine.WriteSpec

/-!
# Requests of a client

A request is a call of the engine's interface together with its arguments.  A
client sends one after the other and goes on when one is answered with an error.
-/

namespace KvEngine

open Foundations

/-- A request of a client. -/
inductive Request
  | write (call : Call)
  | get (key : Bytes)
  | getAt (key : Bytes) (snap : Snapshot)
  | scan (start stop : Bytes)
  deriving DecidableEq, Repr

/-- What a request returns. -/
inductive Response
  | done
  | found (value : Option Bytes)
  | listed (entries : List (Bytes × Bytes))
  deriving DecidableEq, Repr

/-- The method that serves the request. -/
def Request.run : Request → EngineM Response
  | .write call => do
      call.run
      pure .done
  | .get key => do
      let value ← Engine.get key
      pure (.found value)
  | .getAt key snap => do
      let value ← Engine.getAt key snap
      pure (.found value)
  | .scan start stop => do
      let entries ← Engine.scan start stop
      pure (.listed entries)

theorem ends_write {call : Call} {w w' : World} {u : Unit} (run : Ends call.run w u w') :
    Ends (Request.write call).run w .done w' :=
  ends_bind.mpr ⟨u, w', run, ends_pure.mpr ⟨rfl, rfl⟩⟩

/-- What the client is answered to a list of requests, and the world afterwards. -/
def serve : List Request → World → List (Except Failure Response) × World
  | [], w => ([], w)
  | request :: requests, w =>
      match request.run w with
      | .ok response w' =>
          let (responses, last) := serve requests w'
          (.ok response :: responses, last)
      | .error e w' =>
          let (responses, last) := serve requests w'
          (.error e :: responses, last)

end KvEngine
