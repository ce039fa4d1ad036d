import Nesquic.Lib.Logged
import Nesquic.RequestHandlers

/-! `Client::run` of iut/quinn/src/client.rs and of iut/noq/src/client.rs, one text over two
libraries. What the library answers comes with the connection. -/
namespace Nesquic.Quinn
open Handlers Logged Perf

/-- What the calls of one `run` return; a write that fails has taken the first `taken` bytes, and
the response is the chunks of the stream up to its FIN. -/
structure Connection where
  openBi : Except String Unit
  writeAll : Except String Unit
  taken : Nat
  finish : Except String Unit
  response : List (List UInt8)

inductive Call where
  | openBi
  | writeAll (bytes : List UInt8)
  | finish
  | readToEnd (limit : Nat)
  deriving DecidableEq

def responseLimit : Nat := 2 ^ 64 - 1

def readResponse (readToEnd : ReadToEnd) (conn : Option Connection)
    (blob : Except String Request) : Except String (Request × List UInt8) × List Call :=
  match conn with
  | none => (.error "not connected", [])
  | some conn =>
    andThen (conn.openBi.mapError ("failed to open stream: " ++ ·), [.openBi]) fun _ =>
    andThen (blob, []) fun request =>
    andThen (conn.writeAll.mapError ("failed to send request: " ++ ·),
      [.writeAll request.toBytes.toList]) fun _ =>
    andThen (conn.finish.mapError ("failed to shutdown stream: " ++ ·), [.finish]) fun _ =>
    ((readToEnd responseLimit conn.response).map (request, ·) |>.mapError
      ("failed to read response: " ++ ·), [.readToEnd responseLimit])

def checkSize (request : Request) (resp : List UInt8) : Except String Unit :=
  if request.len ≠ resp.length then
    .error s!"received blob size ({resp.length}B) different from requested blob size ({request.len}B)"
  else .ok ()

def run (readToEnd : ReadToEnd) (conn : Option Connection) (blob : Except String Request) :
    Except String Unit × List Call :=
  andThen (readResponse readToEnd conn blob) fun r => (checkSize r.1 r.2, [])

end Nesquic.Quinn
