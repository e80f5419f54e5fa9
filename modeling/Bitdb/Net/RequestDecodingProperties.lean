import Bitdb.Codec.CheckedRead
import Bitdb.Net.RpcServer

/-! When the bytes of a packet are read inside their buffer. -/

set_option autoImplicit false

namespace Bitdb

open Serializer (reading)
open List

/-- A packet with a name, and with parameters if there is such a function. -/
def RequestBegins (params : List Byte → Option CodecType) (packet : List Byte) : Prop :=
  ∃ name rest, SizedString name ∧ packet = Overload.stringImage name ++ rest ∧
    ∀ type, params name = some type → type.Begins rest

section Request

variable {grows : Growth} {params : List Byte → Option CodecType} {packet : List Byte}

theorem readArguments_ok {consumed rest : List Byte} {function : Option CodecType}
    {after : Serializer} (ran : readArguments grows (reading consumed rest) function = .ok after) :
    (∀ type, function = some type → type.Begins rest) ∧ after.buffer = consumed ++ rest ∧
      after.deserializePos ≤ (consumed ++ rest).length := by
  cases function with
  | none =>
    cases ran
    refine ⟨by rintro _ ⟨⟩, rfl, ?_⟩
    rw [length_append]
    exact Nat.le_add_right _ _
  | some type =>
    rw [readArguments] at ran
    cases read : type.reader grows type.overload.fresh (reading consumed rest) with
    | error stop =>
      rw [read] at ran
      cases ran
    | ok result =>
      rw [read] at ran
      cases ran
      obtain ⟨fitting, behind, split, moved⟩ :=
        (type.reader_exact grows).parses _ _ _ result.1 result.2 read
      rw [moved, split, reading]
      refine ⟨?_, append_assoc .., ?_⟩
      · rintro _ ⟨⟩
        exact ⟨result.1, behind, fitting, rfl⟩
      · simp only [length_append]
        omega

theorem readArguments_begins {function : Option CodecType} {rest : List Byte}
    (begins : ∀ type, function = some type → type.Begins rest) (consumed : List Byte) :
    readArguments grows (reading consumed rest) function ≠ .error .outOfBounds := by
  cases function with
  | none =>
    rw [readArguments]
    simp
  | some type =>
    obtain ⟨value, behind, fitting, rfl⟩ := begins type rfl
    rw [readArguments]
    rcases (type.reader_exact grows).accepts type.overload.fresh value fitting consumed behind
      with read | threw
    · rw [read]
      simp [Except.map]
    · rw [threw]
      simp [Except.map]

theorem readRequest_ok {after : Serializer} (ran : readRequest grows params packet = .ok after) :
    RequestBegins params packet ∧ after.buffer = packet ∧ after.deserializePos ≤ packet.length := by
  obtain ⟨⟨name, middle⟩, read, later⟩ := Reader.bind_ok ran
  obtain ⟨sized, rest, rfl, rfl⟩ := (Reader.string_exact grows).parses [] [] packet _ _ read
  obtain ⟨bound, whole, inside⟩ := readArguments_ok later
  exact ⟨⟨name, rest, sized, rfl, bound⟩, whole, inside⟩

theorem readRequest_begins (begins : RequestBegins params packet) :
    readRequest grows params packet ≠ .error .outOfBounds := by
  obtain ⟨name, rest, sized, rfl, bound⟩ := begins
  have start : Serializer.ofBuffer (Overload.stringImage name ++ rest) =
      reading [] (Overload.stringImage name ++ rest) := rfl
  rw [readRequest, start]
  rcases (Reader.string_exact grows).accepts [] name sized [] rest with read | threw
  · rw [read]
    exact readArguments_begins bound _
  · rw [threw]
    simp [bind, Except.bind]

theorem readRequest_in_bounds_iff :
    readRequest grows params packet ≠ .error .outOfBounds ↔
      readRequest grows params packet = .error .thrown ∨ RequestBegins params packet := by
  constructor
  · intro inside
    cases ran : readRequest grows params packet with
    | ok after => exact .inr (readRequest_ok ran).1
    | error stop =>
      cases stop with
      | thrown => exact .inl rfl
      | outOfBounds => exact absurd ran inside
  · rintro (threw | begins)
    · rw [threw]
      simp
    · exact readRequest_begins begins

end Request

namespace Rpc

structure TypedFunction where
  params : CodecType
  Result : Type
  result : Overload Result
  call : params.Value → Result

def TypedFunction.function (func : TypedFunction) : RpcFunction :=
  ⟨func.params.Value, func.Result, func.params.overload, func.result, func.call⟩

def handlersOf (functions : List Byte → Option TypedFunction) : Handlers :=
  fun name => (functions name).map fun func => callProxy func.function

def paramsOf (functions : List Byte → Option TypedFunction) : List Byte → Option CodecType :=
  fun name => (functions name).map TypedFunction.params

theorem callImpl_eq_none_iff (functions : List Byte → Option TypedFunction) (name : List Byte)
    (serializer : Serializer) :
    callImpl (handlersOf functions) name serializer = none ↔
      readArguments (fun _ _ => true) serializer (paramsOf functions name) =
        .error .outOfBounds := by
  rw [callImpl, handlersOf, paramsOf]
  cases functions name with
  | none => exact ⟨by rintro ⟨⟩, by rintro ⟨⟩⟩
  | some func =>
    have checked := func.params.overload_checked func.params.overload.fresh serializer
    simp only [Option.map_some, readArguments, checked, callProxy, TypedFunction.function]
    cases func.params.overload.deserialize func.params.overload.fresh serializer with
    | none => exact ⟨fun _ => rfl, fun _ => rfl⟩
    | some args => exact ⟨by rintro ⟨⟩, by rintro ⟨⟩⟩

theorem onRequest_eq_none_iff (functions : List Byte → Option TypedFunction) (packet : List Byte) :
    onRequest (handlersOf functions) packet = none ↔
      readRequest (fun _ _ => true) (paramsOf functions) packet = .error .outOfBounds := by
  rw [onRequest, readRequest, string_checked]
  cases Overload.string.deserialize [] (.ofBuffer packet) with
  | none => exact ⟨fun _ => rfl, fun _ => rfl⟩
  | some read =>
    refine Iff.trans ?_ (callImpl_eq_none_iff functions read.1 read.2)
    change (callImpl _ read.1 read.2).bind _ = none ↔ _
    cases callImpl (handlersOf functions) read.1 read.2 with
    | none => exact ⟨fun _ => rfl, fun _ => rfl⟩
    | some output => exact ⟨by rintro ⟨⟩, by rintro ⟨⟩⟩

theorem readRequest_not_thrown (params : List Byte → Option CodecType) (packet : List Byte) :
    readRequest (fun _ _ => true) params packet ≠ .error .thrown := by
  rw [readRequest, string_checked]
  cases Overload.string.deserialize [] (.ofBuffer packet) with
  | none => rintro ⟨⟩
  | some read =>
    change readArguments _ read.2 (params read.1) ≠ _
    cases params read.1 with
    | none => rintro ⟨⟩
    | some type =>
      rw [readArguments, type.overload_checked]
      cases type.overload.deserialize type.overload.fresh read.2 with
      | none => rintro ⟨⟩
      | some args => rintro ⟨⟩

end Rpc

end Bitdb
