import Bitdb.Codec.Overload
import Bitdb.Utils.Bytes
import Mathlib.Data.List.Induction
import Mathlib.Logic.Function.Basic

/-! How a call is answered (`bitdb/net/rpc/rpc_server.h` and `rpc_value.h`), and how the client builds
the request and reads the reply (`Call` and `NetCall` of `rpc_client.h`). -/

set_option autoImplicit false

namespace Bitdb.Rpc

open List Option Overload Serializer

/-- `RpcErrCode`, as it is stored in a `code_type`. -/
inductive RpcErrCode where
  | succecc
  | errFunctionNotFound
  | errRecvTimeout
  deriving DecidableEq, Repr

def RpcErrCode.code : RpcErrCode → UInt16
  | .succecc => 0
  | .errFunctionNotFound => 1
  | .errRecvTimeout => 2

structure RpcResponse (α : Type) where
  errCode : UInt16
  errMsg : List Byte
  detailValue : α
  deriving DecidableEq, Repr

namespace RpcResponse

variable {α : Type}

def initial (detail : Overload α) : RpcResponse α := ⟨0, [], detail.fresh⟩

def overload (detail : Overload α) : Overload (RpcResponse α) where
  fresh := initial detail
  serialize response serializer :=
    serializer
      |> Overload.uint16.serialize response.errCode
      |> Overload.string.serialize response.errMsg
      |> detail.serialize response.detailValue
  deserialize response serializer := do
    let (errCode, serializer) ← Overload.uint16.deserialize response.errCode serializer
    let (errMsg, serializer) ← Overload.string.deserialize response.errMsg serializer
    let (detailValue, serializer) ← detail.deserialize response.detailValue serializer
    return (⟨errCode, errMsg, detailValue⟩, serializer)

end RpcResponse

/-- A function for `Bind`, with the overloads for `std::tuple` of its decayed parameters and
for its return type. -/
structure RpcFunction where
  Params : Type
  Result : Type
  params : Overload Params
  result : Overload Result
  call : Params → Result

/-- `HandleFunc`: the serializers of the request and of the reply. -/
abbrev HandleFunc := Serializer → Serializer → Option (Serializer × Serializer)

def callProxy (func : RpcFunction) : HandleFunc := fun inputSerializer outputSerializer => do
  let (args, inputSerializer) ← func.params.deserialize func.params.fresh inputSerializer
  let res := func.call args
  let value := { RpcResponse.initial func.result with
    errCode := RpcErrCode.succecc.code, detailValue := res }
  return (inputSerializer, (RpcResponse.overload func.result).serialize value outputSerializer)

/-- `handlers_`. -/
abbrev Handlers := List Byte → Option HandleFunc

structure Binding where
  name : Bytes
  func : RpcFunction

/-- `Bind`: the key of the map is made from `name.data()`. -/
def bind (handlers : Handlers) (binding : Binding) : Handlers :=
  Function.update handlers binding.name.cString (some (callProxy binding.func))

def bindAll (bindings : List Binding) : Handlers := bindings.foldl bind fun _ => none

def ascii (text : String) : List Byte := text.toList.map fun char => UInt8.ofNat char.toNat

def functionNotBind (name : List Byte) : List Byte := ascii "function not bind: " ++ name

def callImpl (handlers : Handlers) (name : List Byte) (inputSerializer : Serializer) :
    Option Serializer :=
  match handlers name with
  | none =>
    some (Serializer.empty
      |> Overload.uint16.serialize RpcErrCode.errFunctionNotFound.code
      |> Overload.string.serialize (functionNotBind name))
  | some func => (func inputSerializer .empty).map fun used => used.2

/-- `OnRequest`: from the packet of the request to the packet of the reply. -/
def onRequest (handlers : Handlers) (buffer : List Byte) : Option (List Byte) := do
  let (funcName, serializer) ← Overload.string.deserialize [] (.ofBuffer buffer)
  let outputSerializer ← callImpl handlers funcName serializer
  return outputSerializer.buffer

/-- `Call` on the side of the client. Without parameters the tuple has no bytes. -/
def request {Params : Type} (params : Overload Params) (name : List Byte) (args : Params) :
    List Byte :=
  (Serializer.empty
    |> Overload.string.serialize name
    |> params.serialize args).buffer

def netCallResponse {Result : Type} (result : Overload Result) (replyBuffer : List Byte) :
    Option (RpcResponse Result × Serializer) :=
  (RpcResponse.overload result).deserialize (.initial result) (.ofBuffer replyBuffer)

def boundFunction (bindings : List Binding) (name : List Byte) : Option RpcFunction :=
  (bindings.reverse.find? fun binding => binding.name.toString = name).map (·.func)

namespace RpcResponse

variable {α : Type} {detail : Overload α}

def headerImage (errCode : UInt16) (errMsg : List Byte) : List Byte :=
  littleEndian 2 errCode.toNat ++ Overload.stringImage errMsg

theorem serialize_header (response : RpcResponse α) (sized : SizedString response.errMsg)
    (serializer : Serializer) :
    (overload detail).serialize response serializer =
      detail.serialize response.detailValue
        (serializer.insert (headerImage response.errCode response.errMsg)) := by
  simp only [overload, headerImage, (Overload.uint16_restores 0 response.errCode).written,
    (Overload.string_restores [] sized).written, Serializer.insert_insert]

variable (detail) in
theorem deserialize_header (target : RpcResponse α) (errCode : UInt16) {errMsg : List Byte}
    (sized : SizedString errMsg) (consumed rest : List Byte) :
    (overload detail).deserialize target (.reading consumed (headerImage errCode errMsg ++ rest)) =
      (detail.deserialize target.detailValue
        (.reading (consumed ++ headerImage errCode errMsg) rest)).map
          fun read => (⟨errCode, errMsg, read.1⟩, read.2) := by
  simp only [overload, headerImage, List.append_assoc,
    (Overload.uint16_restores _ errCode).restored, (Overload.string_restores _ sized).restored,
    bind_eq_bind, bind_some]
  exact map_eq_bind.symm

theorem restores {target response : RpcResponse α} {value : List Byte}
    (sized : SizedString response.errMsg)
    (detailRestores : detail.Restores target.detailValue response.detailValue value) :
    (overload detail).Restores target response
      (headerImage response.errCode response.errMsg ++ value) where
  written serializer := by
    rw [serialize_header response sized, detailRestores.written, Serializer.insert_insert]
  restored consumed rest := by
    rw [List.append_assoc, deserialize_header detail target _ sized, detailRestores.restored,
      map_some, List.append_assoc]

end RpcResponse

theorem bindAll_append (bindings : List Binding) (binding : Binding) :
    bindAll (bindings ++ [binding]) = bind (bindAll bindings) binding := by
  rw [bindAll, foldl_append]
  rfl

theorem bindAll_eq {bindings : List Binding} (plain : ∀ binding ∈ bindings, binding.name.Plain)
    (name : List Byte) : bindAll bindings name = (boundFunction bindings name).map callProxy := by
  induction bindings using List.reverseRecOn with
  | nil => rfl
  | append_singleton bindings binding ih =>
    have key : binding.name.cString = binding.name.toString := (plain binding (by simp)).cString_eq
    have earlier := ih fun other member => plain other (mem_append_left _ member)
    rw [bindAll_append, bind, key, boundFunction, reverse_append, reverse_singleton,
      singleton_append]
    by_cases same : binding.name.toString = name
    · rw [same, Function.update_self, List.find?_cons_of_pos (by simpa using same)]
      rfl
    · rw [Function.update_of_ne (Ne.symm same), earlier,
        List.find?_cons_of_neg (by simpa using same)]
      rfl

section Exchange

variable {bindings : List Binding} {name : List Byte}

variable {image : List Byte}

theorem onRequest_request {Params : Type} {params : Overload Params} {handlers : Handlers}
    {args : Params} (sized : SizedString name)
    (written : ∀ serializer, params.serialize args serializer = serializer.insert image) :
    onRequest handlers (request params name args) =
      (callImpl handlers name (.reading (stringImage name) image)).map (·.buffer) := by
  have named := string_restores [] sized
  have buffer : ofBuffer (request params name args) = .reading [] (stringImage name ++ image) := by
    simp only [request, written, named.written, Serializer.insert, Serializer.empty, nil_append]
    rfl
  rw [onRequest, buffer, named.restored, bind_eq_bind, bind_some, nil_append]
  exact map_eq_bind.symm

theorem call_bound {func : RpcFunction} {args : func.Params} {value : List Byte}
    (sized : SizedString name) (plain : ∀ binding ∈ bindings, binding.name.Plain)
    (bound : boundFunction bindings name = some func)
    (sent : func.params.Restores func.params.fresh args image)
    (returned : func.result.Restores func.result.fresh (func.call args) value) :
    ∃ reply, onRequest (bindAll bindings) (request func.params name args) = some reply ∧
      netCallResponse func.result reply =
        some (⟨RpcErrCode.succecc.code, [], func.call args⟩, ⟨reply, reply.length⟩) := by
  let response : RpcResponse func.Result := ⟨RpcErrCode.succecc.code, [], func.call args⟩
  have sizedMsg : SizedString response.errMsg := Nat.two_pow_pos 64
  have restores : (RpcResponse.overload func.result).Restores (.initial func.result) response
      (RpcResponse.headerImage response.errCode response.errMsg ++ value) :=
    RpcResponse.restores sizedMsg returned
  have received := sent.restored (stringImage name) []
  rw [append_nil] at received
  refine ⟨RpcResponse.headerImage response.errCode response.errMsg ++ value, ?_, ?_⟩
  · rw [onRequest_request sized sent.written, callImpl, bindAll_eq plain, bound]
    simp only [map_some, callProxy, received, bind_eq_bind, bind_some]
    exact congrArg (fun serializer => some serializer.buffer) (restores.written .empty)
  · have read := restores.restored [] []
    simp only [append_nil, nil_append, reading] at read
    exact read

theorem sized_name (sized : SizedString (functionNotBind name)) : SizedString name :=
  Nat.lt_of_le_of_lt (length_append ▸ Nat.le_add_left _ _) sized

theorem call_unbound {Params : Type} {params : Overload Params} {args : Params}
    (sized : SizedString (functionNotBind name)) (plain : ∀ binding ∈ bindings, binding.name.Plain)
    (unbound : boundFunction bindings name = none)
    (sent : params.Restores params.fresh args image) :
    ∃ reply, onRequest (bindAll bindings) (request params name args) = some reply ∧
      ∀ result : CodecType, (∃ value, netCallResponse result.overload reply =
          some (⟨RpcErrCode.errFunctionNotFound.code, functionNotBind name, value⟩,
            ⟨reply, reply.length⟩)) ↔ result.isEmpty = true := by
  let reply := RpcResponse.headerImage RpcErrCode.errFunctionNotFound.code (functionNotBind name)
  refine ⟨reply, ?_, fun result => ?_⟩
  · rw [onRequest_request (sized_name sized) sent.written, callImpl, bindAll_eq plain, unbound]
    simp only [map_none, map_some, (uint16_restores 0 _).written,
      (string_restores [] sized).written, insert_insert]
    rfl
  · have decoded : netCallResponse result.overload reply =
        (result.overload.deserialize result.overload.fresh ⟨reply, reply.length⟩).map
          fun read =>
            (⟨RpcErrCode.errFunctionNotFound.code, functionNotBind name, read.1⟩, read.2) := by
      have read := RpcResponse.deserialize_header result.overload (.initial result.overload)
        RpcErrCode.errFunctionNotFound.code sized [] []
      simp only [append_nil, nil_append, reading] at read
      exact read
    rw [decoded]
    rcases result.deserialize_end result.overload.fresh reply with
      ⟨empty, value, read⟩ | ⟨full, failed⟩
    · rw [read, map_some]
      exact iff_of_true ⟨value, rfl⟩ empty
    · rw [failed, full, map_none]
      exact iff_of_false (by rintro ⟨_, ⟨⟩⟩) Bool.false_ne_true

/-- A call of a name that is bound returns what the function returns. A call of any other name
is reported to a client that expects a value without bytes, and to no other. -/
theorem rpc_dispatch_iff (bindings : List Binding) (name : List Byte)
    (plain : ∀ binding ∈ bindings, binding.name.Plain)
    (sized : SizedString (functionNotBind name)) :
    (∀ func args image value, boundFunction bindings name = some func →
      func.params.Restores func.params.fresh args image →
      func.result.Restores func.result.fresh (func.call args) value →
      ∃ reply, onRequest (bindAll bindings) (request func.params name args) = some reply ∧
        netCallResponse func.result reply =
          some (⟨RpcErrCode.succecc.code, [], func.call args⟩, ⟨reply, reply.length⟩)) ∧
    (boundFunction bindings name = none →
      ∀ (Params : Type) (params : Overload Params) (args : Params) (image : List Byte),
      params.Restores params.fresh args image →
      ∃ reply, onRequest (bindAll bindings) (request params name args) = some reply ∧
        ∀ result : CodecType, (∃ value, netCallResponse result.overload reply =
            some (⟨RpcErrCode.errFunctionNotFound.code, functionNotBind name, value⟩,
              ⟨reply, reply.length⟩)) ↔ result.isEmpty = true) :=
  ⟨fun _ _ _ _ bound sent returned =>
    call_bound (sized_name sized) plain bound sent returned,
    fun unbound _ _ _ _ sent => call_unbound sized plain unbound sent⟩

theorem rpc_dispatch_negation :
    let negation : RpcFunction := ⟨Bool, Bool, .bool, .bool, not⟩
    ∃ reply, onRequest (bindAll [⟨.ofString (ascii "not"), negation⟩])
        (request Overload.bool (ascii "not") true) = some reply ∧
      netCallResponse Overload.bool reply = some (⟨0, [], false⟩, ⟨reply, reply.length⟩) := by
  intro negation
  have plain : ∀ binding ∈ [(⟨.ofString (ascii "not"), negation⟩ : Binding)],
      binding.name.Plain := by
    intro binding member
    rw [mem_singleton.mp member]
    exact ⟨by decide, by decide⟩
  exact (rpc_dispatch_iff _ (ascii "not") plain (by decide : _ < _)).1 negation true _ _ rfl
    (Overload.bool_restores _ _) (Overload.bool_restores _ _)

/-- The reply to a call of a name that is not bound ends where the client expects the value. -/
theorem unbound_call_reads_past_reply :
    ((onRequest (bindAll []) (request Overload.emptyTuple (ascii "f") ())).map
      fun reply => (reply.length, netCallResponse Overload.int32 reply)) = some (30, none) := by
  decide

end Exchange

end Bitdb.Rpc
