import Bitdb.Net.IoAwaiter
import Bitdb.Net.RpcServer

/-! Calls of one client over one connection (`Call` and `NetCall` of `class RpcClient` in
`bitdb/net/rpc/rpc_client.h`). Several coroutines may be between two calls of `read` or `write` at
the same time. The server answers in the order of arrival. -/

set_option autoImplicit false

namespace Bitdb.Rpc

open Net

/-- Where a call is in `NetCall`; it returns without a reply if receiving has failed. -/
inductive NetCall where
  | created (request : List Byte)
  | writing (request : List Byte) (packet : WritePacket)
  | reading (request : List Byte) (packet : ReadPacket)
  | returned (request : List Byte) (reply : Option (List Byte))
  deriving DecidableEq, Repr

/-- Part of the request of a call was written, but not all of it. -/
def NetCall.Midway : NetCall → Prop
  | .writing _ (.header transfer _) => 0 < transfer.already
  | .writing _ (.body _ _) => True
  | _ => False

/-- The client with its calls, and the bytes that are under way. `exited` is set by `LOG_FATAL`,
and `unanswered` are the calls whose request was written and that have not read a reply, with
the oldest first. -/
structure RpcClient where
  errCode : RpcErrCode
  calls : Nat → Option NetCall
  requests : List Byte
  replies : List Byte
  exited : Bool
  unanswered : List (Nat × List Byte)

/-- `call` makes a request, and `start` enters `NetCall`. A call of `write` or `read` moves as
many bytes as its result says. -/
inductive ClientEvent where
  | call (id : Nat) (request : List Byte)
  | start (id : Nat) (buffers : ReadBuffers)
  | write (id : Nat) (result : IoResult) (buffers : ReadBuffers)
  | serve
  | read (id : Nat) (result : IoResult)

def ClientEvent.caller : ClientEvent → Option Nat
  | .call id _ => some id
  | .start id _ => some id
  | .write id _ _ => some id
  | .serve => none
  | .read id _ => some id

def firstPacket (stream : List Byte) : Option (List Byte × List Byte) :=
  let total := ofLittleEndian (stream.take headerSize)
  if headerSize + total ≤ stream.length then
    some ((stream.drop headerSize).take total, (stream.drop headerSize).drop total)
  else none

namespace RpcClient

def initial : RpcClient := ⟨.succecc, fun _ => none, [], [], false, []⟩

def setCall (client : RpcClient) (id : Nat) (call : NetCall) : RpcClient :=
  { client with calls := Function.update client.calls id (some call) }

def wrote (client : RpcClient) (id : Nat) (request accepted : List Byte) (buffers : ReadBuffers) :
    WritePacket → RpcClient
  | .returned true =>
    { client.setCall id (.reading request (.start buffers.headBuffer buffers.buffer)) with
      requests := client.requests ++ accepted
      unanswered := client.unanswered ++ [(id, request)] }
  | .returned false => { client with exited := true }
  | packet =>
    { client.setCall id (.writing request packet) with requests := client.requests ++ accepted }

def received (client : RpcClient) (id : Nat) (request replies : List Byte) :
    ReadPacket → RpcClient
  | .returned true reply =>
    { client.setCall id (.returned request (some reply)) with
      errCode := .succecc, replies := replies
      unanswered := client.unanswered.eraseP fun call => call.1 = id }
  | .returned false _ =>
    { client.setCall id (.returned request none) with
      errCode := .errRecvTimeout, replies := replies }
  | packet => { client.setCall id (.reading request packet) with replies := replies }

def step (serve : List Byte → List Byte) (client : RpcClient) (event : ClientEvent) :
    Option RpcClient :=
  if client.exited then none
  else
    match event with
    | .call id request =>
      match client.calls id with
      | none => some (client.setCall id (.created request))
      | some _ => none
    | .start id buffers =>
      match client.calls id with
      | some (.created request) =>
        if client.errCode ≠ .errRecvTimeout then
          some (client.setCall id (.writing request (.start request)))
        else
          some (client.setCall id (.reading request (.start buffers.headBuffer buffers.buffer)))
      | _ => none
    | .write id (.count size) buffers =>
      match client.calls id with
      | some (.writing request packet) =>
        if size ≤ packet.offered.length then
          some (client.wrote id request (packet.offered.take size) buffers
            (packet.next (.count size)))
        else none
      | _ => none
    | .write id (.error errno) buffers =>
      match client.calls id with
      | some (.writing request packet) =>
        some (client.wrote id request [] buffers (packet.next (.error errno)))
      | _ => none
    | .serve =>
      match firstPacket client.requests with
      | some (request, requests) =>
        some { client with
          requests := requests, replies := client.replies ++ packetImage (serve request) }
      | none => none
    | .read id (.count size) =>
      match client.calls id with
      | some (.reading request packet) =>
        if size ≤ packet.wanted ∧ size ≤ client.replies.length then
          some (client.received id request (client.replies.drop size)
            (packet.next (.data (client.replies.take size))))
        else none
      | _ => none
    | .read id (.error errno) =>
      match client.calls id with
      | some (.reading request packet) =>
        some (client.received id request client.replies (packet.next (.error errno)))
      | _ => none

def Step (serve : List Byte → List Byte) (client : RpcClient) (event : ClientEvent)
    (reached : RpcClient) : Prop :=
  client.step serve event = some reached

/-- Requests and replies fit the header of a packet, no request is written into another one, and
only the call whose request is the oldest without an answer reads what the server has sent. -/
def Orderly (serve : List Byte → List Byte) (client : RpcClient) : ClientEvent → Prop
  | .call _ request => request.length < 2 ^ 32
  | .write id (.count _) _ =>
    ∀ other call, other ≠ id → client.calls other = some call → ¬ call.Midway
  | .serve =>
    ∀ request rest, firstPacket client.requests = some (request, rest) →
      (serve request).length < 2 ^ 32
  | .read id (.count size) => 0 < size → client.unanswered.head?.map Prod.fst = some id
  | _ => True

def OrderlyStep (serve : List Byte → List Byte) (client : RpcClient) (event : ClientEvent)
    (reached : RpcClient) : Prop :=
  client.Step serve event reached ∧ client.Orderly serve event

end RpcClient

end Bitdb.Rpc
