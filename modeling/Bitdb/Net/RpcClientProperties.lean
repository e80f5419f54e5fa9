import Bitdb.Net.RpcClient
import Mathlib.Data.List.Nodup

/-! When each call gets the reply to its own request. -/

set_option autoImplicit false

namespace Bitdb.Rpc

open Net ReadPacket
open Base (Run)
open List

theorem firstPacket_eq_some {stream packet rest : List Byte}
    (found : firstPacket stream = some (packet, rest)) :
    stream = packetImage packet ++ rest ∧ Sendable packet := by
  rw [firstPacket] at found
  split at found
  next inside =>
    cases found
    have length : (stream.take headerSize).length = headerSize := by
      rw [length_take]
      omega
    have whole := take_append_drop headerSize stream
    generalize stream.take headerSize = head at inside length whole ⊢
    have total : ((stream.drop headerSize).take (ofLittleEndian head)).length =
        ofLittleEndian head := by
      rw [length_take, length_drop]
      omega
    have sendable : Sendable ((stream.drop headerSize).take (ofLittleEndian head)) := by
      have fits := ofLittleEndian_lt head
      rw [length] at fits
      rw [Sendable, total]
      exact fits
    have header : WritePacket.headBuffer ((stream.drop headerSize).take (ofLittleEndian head)) =
        head := by
      rw [WritePacket.headBuffer, totalWriteSize_eq sendable, total, ← length]
      exact littleEndian_ofLittleEndian head
    refine ⟨?_, sendable⟩
    rw [packetImage, header, append_assoc, take_append_drop, whole]
  next => cases found

def NetCall.sent : NetCall → List Byte
  | .writing request packet => (WritePacket.image request).take packet.position
  | _ => []

def NetCall.waits : NetCall → Bool
  | .reading _ _ => true
  | .returned _ none => true
  | _ => false

def NetCall.Good (serve : List Byte → List Byte) (unanswered : List (Nat × List Byte))
    (id : Nat) : NetCall → Prop
  | .created request => Sendable request
  | .writing request packet => Sendable request ∧ packet.Writes request
  | .reading request packet =>
    packet.Waiting ∧ (packet.got = [] ∨ unanswered.head? = some (id, request))
  | .returned request (some reply) => reply = serve request
  | .returned _ none => True

namespace RpcClient

def sent (client : RpcClient) (id : Nat) : List Byte :=
  match client.calls id with
  | some call => call.sent
  | none => []

def headGot (client : RpcClient) : List Byte :=
  match client.unanswered with
  | [] => []
  | (id, _) :: _ =>
    match client.calls id with
    | some (.reading _ packet) => packet.got
    | _ => []

def HeadFailed (client : RpcClient) : Prop :=
  ∃ id request, client.unanswered.head? = some (id, request) ∧
    client.calls id = some (.returned request none)

/-- The requests under way: those that were written whole, and a part of one. -/
structure Sending (client : RpcClient) (unserved : List (Nat × List Byte)) (part : List Byte) :
    Prop where
  requests : client.requests = (unserved.map Prod.snd).flatMap packetImage ++ part
  others : ∀ id, client.sent id = [] ∨ client.sent id = part
  owner : part = [] ∨ ∃ id, client.sent id = part

/-- The replies under way, the first of which the oldest call may have begun to read. -/
structure Receiving (serve : List Byte → List Byte) (client : RpcClient)
    (served : List (Nat × List Byte)) : Prop where
  fits : ∀ entry ∈ served, Sendable (serve entry.2)
  stream : client.HeadFailed ∨ client.headGot ++ client.replies =
    (served.map fun entry => serve entry.2).flatMap packetImage

structure Sound (serve : List Byte → List Byte) (client : RpcClient) : Prop where
  good : ∀ id call, client.calls id = some call → call.Good serve client.unanswered id
  waiting : ∀ entry ∈ client.unanswered,
    (∃ packet, client.calls entry.1 = some (.reading entry.2 packet)) ∨
      client.calls entry.1 = some (.returned entry.2 none)
  distinct : (client.unanswered.map Prod.fst).Nodup
  sendable : ∀ entry ∈ client.unanswered, Sendable entry.2
  streams : ∃ served unserved part, client.unanswered = served ++ unserved ∧
    client.Sending unserved part ∧ client.Receiving serve served

variable {serve : List Byte → List Byte} {client reached : RpcClient}

theorem sound_initial : initial.Sound serve where
  good := by rintro _ _ ⟨⟩
  waiting := by rintro _ ⟨⟩
  distinct := nodup_nil
  sendable := by rintro _ ⟨⟩
  streams :=
    ⟨[], [], [], rfl, ⟨rfl, fun _ => .inl rfl, .inl rfl⟩, ⟨by rintro _ ⟨⟩, .inr rfl⟩⟩

theorem calls_setCall_self (client : RpcClient) (id : Nat) (call : NetCall) :
    (client.setCall id call).calls id = some call := by
  simp only [setCall, Function.update_self]

variable {id other : Nat} {packet : ReadPacket} {event : ClientEvent}

theorem calls_setCall_of_ne (client : RpcClient) (call : NetCall) (different : other ≠ id) :
    (client.setCall id call).calls other = client.calls other := by
  simp only [setCall, Function.update_of_ne different]

theorem sent_setCall_self (client : RpcClient) (id : Nat) (call : NetCall) :
    (client.setCall id call).sent id = call.sent := by
  rw [sent, calls_setCall_self]

theorem sent_setCall_of_ne (client : RpcClient) (call : NetCall) (different : other ≠ id) :
    (client.setCall id call).sent other = client.sent other := by
  rw [sent, sent, calls_setCall_of_ne client call different]

theorem sent_setCall_same {call : NetCall} (same : call.sent = client.sent id) (other : Nat) :
    (client.setCall id call).sent other = client.sent other := by
  by_cases here : other = id
  · rw [here, sent_setCall_self, same]
  · exact client.sent_setCall_of_ne call here

theorem headGot_setCall (call : NetCall)
    (behind : ∀ entry ∈ client.unanswered.head?, entry.1 ≠ id) :
    (client.setCall id call).headGot = client.headGot := by
  rw [headGot, headGot]
  have same : (client.setCall id call).unanswered = client.unanswered := rfl
  rw [same]
  cases order : client.unanswered with
  | nil => rfl
  | cons entry rest =>
    have different : entry.1 ≠ id := behind entry (by rw [order]; rfl)
    simp only [client.calls_setCall_of_ne call different]

theorem headGot_of_head {request own : List Byte}
    (oldest : client.unanswered.head? = some (id, request))
    (reading : client.calls id = some (.reading own packet)) : client.headGot = packet.got := by
  rw [headGot]
  cases order : client.unanswered with
  | nil =>
    rw [order] at oldest
    cases oldest
  | cons entry rest =>
    rw [order] at oldest
    cases oldest
    simp only [reading]

theorem not_headFailed {request own : List Byte}
    (oldest : client.unanswered.head? = some (id, request))
    (reading : client.calls id = some (.reading own packet)) : ¬ client.HeadFailed := by
  rintro ⟨head, failedRequest, first, failed⟩
  rw [oldest] at first
  cases first
  rw [reading] at failed
  cases failed

section

variable {served : List (Nat × List Byte)} (receiving : client.Receiving serve served)

include receiving

theorem Receiving.setCall (call : NetCall)
    (behind : ∀ entry ∈ client.unanswered.head?, entry.1 ≠ id) :
    (client.setCall id call).Receiving serve served := by
  refine ⟨receiving.fits, ?_⟩
  rw [headGot_setCall call behind]
  refine receiving.stream.imp_left ?_
  rintro ⟨head, request, first, failed⟩
  refine ⟨head, request, first, ?_⟩
  rw [client.calls_setCall_of_ne call (behind _ first)]
  exact failed

theorem Receiving.append {request requests : List Byte} (entry : Nat × List Byte)
    (reading : client.calls entry.1 = some (.reading request packet)) (nothing : packet.got = []) :
    ({ client with requests := requests, unanswered := client.unanswered ++ [entry] } :
      RpcClient).Receiving serve served := by
  refine ⟨receiving.fits, ?_⟩
  cases order : client.unanswered with
  | nil =>
    rcases receiving.stream with ⟨_, _, first, _⟩ | stream
    · rw [order] at first
      cases first
    · rw [headGot, order] at stream
      refine .inr ?_
      simp only [headGot, nil_append, reading, nothing]
      exact stream
  | cons oldest rest =>
    rcases receiving.stream with ⟨id, failedRequest, first, failed⟩ | stream
    · rw [order] at first
      exact .inl ⟨id, failedRequest, first, failed⟩
    · rw [headGot, order] at stream
      exact .inr stream

end

section

variable {part : List Byte} {unserved : List (Nat × List Byte)}
  (sending : client.Sending unserved part)

include sending

theorem Sending.setCall {call : NetCall} (same : call.sent = client.sent id) :
    (client.setCall id call).Sending unserved part := by
  refine ⟨sending.requests, fun other => ?_, ?_⟩
  · rw [sent_setCall_same same]
    exact sending.others other
  · simp only [sent_setCall_same same]
    exact sending.owner

theorem Sending.part_eq (others : ∀ other, other ≠ id → client.sent other = []) :
    part = client.sent id := by
  rcases sending.others id with nothing | same
  · rcases sending.owner with none | ⟨owner, owns⟩
    · rw [none, nothing]
    · by_cases here : owner = id
      · rw [← owns, here]
      · rw [← owns, others owner here, nothing]
  · exact same.symm

end

theorem Good.of_head {unanswered others : List (Nat × List Byte)} {call : NetCall}
    (good : call.Good serve unanswered id)
    (still : ∀ request, unanswered.head? = some (id, request) →
      others.head? = some (id, request)) : call.Good serve others id := by
  cases call with
  | created | writing => exact good
  | reading request packet => exact ⟨good.1, good.2.imp_right (still request)⟩
  | returned request reply =>
    cases reply with
    | none => trivial
    | some reply => exact good

section

variable (sound : client.Sound serve)

include sound

theorem good_setCall {call : NetCall} (good : call.Good serve client.unanswered id) (other : Nat)
    (found : NetCall) (present : (client.setCall id call).calls other = some found) :
    found.Good serve client.unanswered other := by
  by_cases here : other = id
  · subst here
    rw [calls_setCall_self] at present
    cases present
    exact good
  · rw [client.calls_setCall_of_ne call here] at present
    exact sound.good other found present

theorem Sound.setCall {call : NetCall} (outside : ∀ entry ∈ client.unanswered, entry.1 ≠ id)
    (good : call.Good serve client.unanswered id) (same : call.sent = client.sent id) :
    (client.setCall id call).Sound serve := by
  obtain ⟨served, unserved, part, split, sending, replies⟩ := sound.streams
  refine ⟨good_setCall sound good, fun entry member => ?_, sound.distinct, sound.sendable,
    served, unserved, part, split, sending.setCall same,
    replies.setCall call fun entry first => outside entry (mem_of_mem_head? first)⟩
  · rw [client.calls_setCall_of_ne call (outside entry member)]
    exact sound.waiting entry member

theorem Sound.outside (idle : ∀ call ∈ client.calls id, call.waits = false) :
    ∀ entry ∈ client.unanswered, entry.1 ≠ id := by
  rintro entry member rfl
  rcases sound.waiting entry member with ⟨packet, reading⟩ | failed
  · cases idle _ reading
  · cases idle _ failed

theorem Sound.sent_of_orderly {size : Nat} {buffers : ReadBuffers}
    (orderly : client.Orderly serve (.write id (.count size) buffers)) (different : other ≠ id) :
    client.sent other = [] := by
  rw [sent]
  cases present : client.calls other with
  | none => rfl
  | some call =>
    have whole := orderly other call different present
    cases call with
    | writing request packet =>
      cases packet with
      | header transfer buffer =>
        have nothing : transfer.already = 0 := Nat.eq_zero_of_not_pos whole
        simp only [NetCall.sent, WritePacket.position, nothing, take_zero]
      | body transfer buffer => exact absurd trivial whole
      | returned result => exact (sound.good other _ present).2.elim
    | created | reading | returned => rfl

theorem Sound.writePart {request taken : List Byte} {packet : WritePacket}
    (outside : ∀ entry ∈ client.unanswered, entry.1 ≠ id)
    (others : ∀ other, other ≠ id → client.sent other = [])
    (good : (NetCall.writing request packet).Good serve client.unanswered id)
    (sent : (NetCall.writing request packet).sent = client.sent id ++ taken) :
    ({ client.setCall id (.writing request packet) with
      requests := client.requests ++ taken } : RpcClient).Sound serve := by
  obtain ⟨served, unserved, part, split, sending, replies⟩ := sound.streams
  have mine := sending.part_eq others
  refine ⟨good_setCall sound good, fun entry member => ?_, sound.distinct, sound.sendable,
    served, unserved, part ++ taken, split, ⟨?_, fun other => ?_, .inr ⟨id, ?_⟩⟩,
    { replies.setCall (.writing request packet) fun entry first =>
        outside entry (mem_of_mem_head? first) with }⟩
  · rw [client.calls_setCall_of_ne _ (outside entry member)]
    exact sound.waiting entry member
  · rw [sending.requests, append_assoc]
  · by_cases here : other = id
    · rw [here, mine, ← sent]
      exact .inr (client.sent_setCall_self id _)
    · exact .inl ((client.sent_setCall_of_ne _ here).trans (others other here))
  · rw [mine, ← sent]
    exact client.sent_setCall_self id _

end

theorem Sound.writeLast {request taken : List Byte} (buffers : ReadBuffers)
    (sound : client.Sound serve) (outside : ∀ entry ∈ client.unanswered, entry.1 ≠ id)
    (others : ∀ other, other ≠ id → client.sent other = []) (sendable : Sendable request)
    (whole : packetImage request = client.sent id ++ taken) :
    ({ client.setCall id (.reading request (.start buffers.headBuffer buffers.buffer)) with
      requests := client.requests ++ taken
      unanswered := client.unanswered ++ [(id, request)] } : RpcClient).Sound serve := by
  obtain ⟨served, unserved, part, split, sending, replies⟩ := sound.streams
  have mine := sending.part_eq others
  have first := waiting_start buffers
  refine ⟨fun other call present => ?_, fun entry member => ?_, ?_, fun entry member => ?_,
    served, unserved ++ [(id, request)], [], ?_, ⟨?_, fun other => ?_, .inl rfl⟩, ?_⟩
  · by_cases here : other = id
    · subst here
      have same := present.symm.trans (client.calls_setCall_self other _)
      cases same
      exact ⟨first, .inl rfl⟩
    · have before := (client.calls_setCall_of_ne _ here).symm.trans present
      refine Good.of_head (sound.good other call before) fun own first => ?_
      rw [List.head?_append, first]
      rfl
  · rcases mem_append.mp member with earlier | new
    · have same := client.calls_setCall_of_ne (.reading request (.start buffers.headBuffer
        buffers.buffer)) (outside entry earlier)
      exact same ▸ sound.waiting entry earlier
    · rw [mem_singleton.mp new]
      exact .inl ⟨_, client.calls_setCall_self id _⟩
  · have fresh : id ∉ client.unanswered.map Prod.fst := by
      intro used
      obtain ⟨entry, member, same⟩ := mem_map.mp used
      exact outside entry member same
    have grown := List.Nodup.concat fresh sound.distinct
    simpa only [map_append, map_cons, map_nil, concat_eq_append] using grown
  · rcases mem_append.mp member with earlier | new
    · exact sound.sendable entry earlier
    · rw [mem_singleton.mp new]
      exact sendable
  · rw [split, append_assoc]
  · simp only [sending.requests, mine, append_assoc, ← whole, map_append,
      flatMap_append, map_cons, map_nil, flatMap_singleton, append_nil]
  · by_cases here : other = id
    · rw [here]
      exact .inl (client.sent_setCall_self id _)
    · exact .inl ((client.sent_setCall_of_ne _ here).trans (others other here))
  · exact (replies.setCall _ fun entry first => outside entry (mem_of_mem_head? first)).append
      (id, request) (client.calls_setCall_self id _) rfl

section

variable (sound : client.Sound serve)

include sound

variable {request rest : List Byte}

theorem Sound.sent_ne_packetImage (sendable : Sendable request) :
    client.sent id ≠ packetImage request ++ rest := by
  intro same
  rw [sent] at same
  have nonempty := packetImage_ne_nil request
  cases present : client.calls id with
  | none =>
    rw [present] at same
    exact nonempty (append_eq_nil_iff.mp same.symm).1
  | some call =>
    simp only [present] at same
    cases call with
    | writing own packet =>
      obtain ⟨ownSendable, writes⟩ := sound.good id _ present
      obtain ⟨positive, within, _⟩ := writes.offers
      have whole := take_append_drop packet.position (WritePacket.image own)
      rw [show (WritePacket.image own).take _ = packetImage request ++ rest from same,
        WritePacket.image_eq ownSendable, append_assoc] at whole
      have left := (packetImage_prefixFree _ _ _ _ sendable ownSendable
        (whole.trans (append_nil _).symm)).2
      have done := drop_eq_nil_iff.mp (append_eq_nil_iff.mp left).2
      rw [WritePacket.image_eq ownSendable] at within
      omega
    | created | reading | returned => exact nonempty (append_eq_nil_iff.mp same.symm).1

theorem Sound.serveNext (found : firstPacket client.requests = some (request, rest))
    (fits : Sendable (serve request)) :
    ({ client with
      requests := rest, replies := client.replies ++ packetImage (serve request) } :
      RpcClient).Sound serve := by
  obtain ⟨served, unserved, part, split, sending, replies⟩ := sound.streams
  obtain ⟨requests, sendable⟩ := firstPacket_eq_some found
  rw [sending.requests] at requests
  cases unserved with
  | nil =>
    exfalso
    have requests : part = packetImage request ++ rest := requests
    rcases sending.owner with none | ⟨id, owns⟩
    · rw [none] at requests
      exact packetImage_ne_nil request (append_eq_nil_iff.mp requests.symm).1
    · exact sound.sent_ne_packetImage sendable (owns.trans requests)
  | cons entry unserved =>
    have entrySendable := sound.sendable entry (by rw [split]; simp)
    rw [map_cons, flatMap_cons, append_assoc] at requests
    obtain ⟨rfl, behind⟩ := packetImage_prefixFree _ _ _ _ entrySendable sendable requests
    refine ⟨sound.good, sound.waiting, sound.distinct, sound.sendable, served ++ [entry],
      unserved, part, ?_, ⟨behind.symm, sending.others, sending.owner⟩, ?_, ?_⟩
    · simp only [split, append_assoc, singleton_append]
    · intro other member
      rcases mem_append.mp member with earlier | new
      · exact replies.fits other earlier
      · rw [mem_singleton.mp new]
        exact fits
    · refine replies.stream.imp id fun stream => ?_
      rw [map_append, flatMap_append, ← stream, append_assoc]
      simp only [map_cons, map_nil, flatMap_singleton]
      rfl

theorem Sound.waiting_setCall {call : NetCall} (waits : ∀ entry ∈ client.unanswered, entry.1 = id →
      (∃ packet, call = .reading entry.2 packet) ∨ call = .returned entry.2 none) :
    ∀ entry ∈ client.unanswered,
      (∃ packet, (client.setCall id call).calls entry.1 = some (.reading entry.2 packet)) ∨
        (client.setCall id call).calls entry.1 = some (.returned entry.2 none) := by
  intro entry member
  by_cases here : entry.1 = id
  · rw [here, calls_setCall_self]
    rcases waits entry member here with ⟨packet, rfl⟩ | rfl
    · exact .inl ⟨packet, rfl⟩
    · exact .inr rfl
  · rw [client.calls_setCall_of_ne call here]
    exact sound.waiting entry member

theorem Sound.nothing_read {own : List Byte} {later : List (Nat × List Byte)}
    (order : client.unanswered = (id, request) :: later)
    (reading : client.calls other = some (.reading own packet)) (different : other ≠ id) :
    packet.got = [] := by
  refine (sound.good other _ reading).2.resolve_right fun first => ?_
  rw [order] at first
  cases first
  exact different rfl

section

variable (present : client.calls id = some (.reading request packet))

include present

theorem Sound.request_eq {entry : Nat × List Byte} (member : entry ∈ client.unanswered)
    (same : entry.1 = id) : entry = (id, request) := by
  subst same
  rcases sound.waiting entry member with ⟨other, reading⟩ | failed
  · rw [present] at reading
    cases reading
    rfl
  · rw [present] at failed
    cases failed

theorem Sound.behind (later : client.unanswered.head? ≠ some (id, request)) :
    ∀ entry ∈ client.unanswered.head?, entry.1 ≠ id := by
  intro entry head same
  exact later (sound.request_eq present (mem_of_mem_head? head) same ▸ head)

theorem Sound.readPart {taken : List Byte} {next : ReadPacket} (waiting : next.Waiting)
    (got : next.got = packet.got ++ taken) (split : client.replies = taken ++ rest)
    (oldest : taken = [] ∨ client.unanswered.head? = some (id, request)) :
    ({ client.setCall id (.reading request next) with replies := rest } :
      RpcClient).Sound serve := by
  obtain ⟨served, unserved, part, order, sending, replies⟩ := sound.streams
  have before : packet.got = [] ∨ client.unanswered.head? = some (id, request) :=
    (sound.good id _ present).2
  have nothing : (NetCall.reading request next).sent = client.sent id := by
    rw [sent, present]
    rfl
  have good : (NetCall.reading request next).Good serve client.unanswered id := by
    refine ⟨waiting, ?_⟩
    rcases oldest with none | oldest
    · rw [got, none, append_nil]
      exact before
    · exact .inr oldest
  refine ⟨good_setCall sound good, sound.waiting_setCall fun entry member same => ?_,
    sound.distinct, sound.sendable, served, unserved, part, order,
    { sending.setCall nothing with }, ?_⟩
  · rw [sound.request_eq present member same]
    exact .inl ⟨next, rfl⟩
  by_cases first : client.unanswered.head? = some (id, request)
  · refine ⟨replies.fits, ?_⟩
    have stream := replies.stream.resolve_left (not_headFailed first present)
    rw [headGot_of_head first present, split, ← append_assoc, ← got] at stream
    have now : (client.setCall id (.reading request next)).headGot = next.got :=
      headGot_of_head first (client.calls_setCall_self id _)
    rw [← now] at stream
    exact .inr stream
  · have none := oldest.resolve_right first
    rw [none] at split
    have kept := replies.setCall (.reading request next) (sound.behind present first)
    have same : client.replies = rest := split
    rw [← same]
    exact ⟨kept.fits, kept.stream⟩

theorem Sound.readFailed (errCode : RpcErrCode) :
    ({ client.setCall id (.returned request none) with errCode := errCode } :
      RpcClient).Sound serve := by
  obtain ⟨served, unserved, part, order, sending, replies⟩ := sound.streams
  have nothing : (NetCall.returned request none).sent = client.sent id := by
    rw [sent, present]
    rfl
  have good : (NetCall.returned request none).Good serve client.unanswered id := trivial
  refine ⟨good_setCall sound good, sound.waiting_setCall fun entry member same => ?_,
    sound.distinct, sound.sendable, served, unserved, part, order,
    { sending.setCall nothing with }, ?_⟩
  · rw [sound.request_eq present member same]
    exact .inr rfl
  by_cases first : client.unanswered.head? = some (id, request)
  · exact ⟨replies.fits, .inl ⟨id, request, first, client.calls_setCall_self id _⟩⟩
  · have kept := replies.setCall (.returned request none) (sound.behind present first)
    exact ⟨kept.fits, kept.stream⟩

theorem Sound.readLast {reply taken : List Byte} (sendable : Sendable reply)
    (image : packetImage reply = packet.got ++ taken) (split : client.replies = taken ++ rest)
    (oldest : client.unanswered.head? = some (id, request)) (errCode : RpcErrCode) :
    ({ client.setCall id (.returned request (some reply)) with
        errCode := errCode, replies := rest
        unanswered := client.unanswered.eraseP fun call => call.1 = id } :
      RpcClient).Sound serve := by
  obtain ⟨served, unserved, part, order, sending, replies⟩ := sound.streams
  have nothing : (NetCall.returned request (some reply)).sent = client.sent id := by
    rw [sent, present]
    rfl
  have stream := replies.stream.resolve_left (not_headFailed oldest present)
  rw [headGot_of_head oldest present, split, ← append_assoc, ← image] at stream
  cases served with
  | nil => exact absurd (append_eq_nil_iff.mp stream).1 (packetImage_ne_nil reply)
  | cons entry served =>
    rw [order] at oldest
    cases oldest
    rw [map_cons, flatMap_cons] at stream
    obtain ⟨rfl, behind⟩ :=
      packetImage_prefixFree _ _ _ _ sendable (replies.fits _ mem_cons_self) stream
    have erased : client.unanswered.eraseP (fun call => call.1 = id) = served ++ unserved := by
      rw [order, cons_append, eraseP_cons_of_pos (by simp)]
    have distinct := sound.distinct
    rw [order, cons_append, map_cons, nodup_cons] at distinct
    have different : ∀ entry ∈ served ++ unserved, entry.1 ≠ id := by
      intro entry member same
      exact distinct.1 (mem_map.mpr ⟨entry, member, same⟩)
    have still : ∀ entry ∈ served ++ unserved,
        (client.setCall id (.returned request (some (serve request)))).calls entry.1 =
          client.calls entry.1 :=
      fun entry member => client.calls_setCall_of_ne _ (different entry member)
    have later : ∀ entry ∈ served ++ unserved, entry ∈ client.unanswered := by
      intro entry member
      rw [order]
      exact mem_cons_of_mem _ member
    rw [erased]
    refine ⟨fun other call found => ?_, fun entry member => ?_, distinct.2,
      fun entry member => sound.sendable entry (later entry member), served, unserved, part,
      rfl, { sending.setCall nothing with },
      fun entry member => replies.fits entry (mem_cons_of_mem _ member), ?_⟩
    · by_cases here : other = id
      · subst here
        cases found.symm.trans (client.calls_setCall_self other _)
        rfl
      · have before := (client.calls_setCall_of_ne _ here).symm.trans found
        refine Good.of_head (sound.good other call before) fun own first => ?_
        rw [order] at first
        cases first
        exact absurd rfl here
    · have same := still entry member
      exact same ▸ sound.waiting entry (later entry member)
    · cases rest : served ++ unserved with
      | nil => exact .inr behind
      | cons next others =>
        have member : next ∈ served ++ unserved := by
          rw [rest]
          exact mem_cons_self
        rcases sound.waiting next (later next member) with ⟨packet, reading⟩ | failed
        · refine .inr ?_
          have none := sound.nothing_read order reading (different next member)
          have now := (still next member).trans reading
          simp only [headGot, now, none]
          exact behind
        · exact .inl ⟨next.1, next.2, rfl, (still next member).trans failed⟩

end

theorem Sound.exit : ({ client with exited := true } : RpcClient).Sound serve := by
  obtain ⟨served, unserved, part, order, sending, replies⟩ := sound.streams
  exact ⟨sound.good, sound.waiting, sound.distinct, sound.sendable, served, unserved, part, order,
    { sending with }, { replies with }⟩

theorem Sound.outside_of_writing {packet : WritePacket}
    (present : client.calls id = some (.writing request packet)) :
    ∀ entry ∈ client.unanswered, entry.1 ≠ id := by
  refine sound.outside ?_
  rw [present]
  rintro _ ⟨⟩
  rfl

end

theorem sent_writing {request : List Byte} {packet : WritePacket}
    (present : client.calls id = some (.writing request packet)) :
    client.sent id = (WritePacket.image request).take packet.position := by
  rw [sent, present]
  rfl

theorem wrote_writing {request own accepted : List Byte} {packet : WritePacket}
    (buffers : ReadBuffers) (writes : packet.Writes own) :
    client.wrote id request accepted buffers packet =
      { client.setCall id (.writing request packet) with
        requests := client.requests ++ accepted } := by
  cases packet with
  | header | body => rfl
  | returned result => exact writes.elim

theorem Sound.write {request : List Byte} {packet : WritePacket} {size : Nat}
    (buffers : ReadBuffers) (sound : client.Sound serve)
    (orderly : client.Orderly serve (.write id (.count size) buffers))
    (present : client.calls id = some (.writing request packet))
    (accepted : size ≤ packet.offered.length) :
    (client.wrote id request (packet.offered.take size) buffers
      (packet.next (.count size))).Sound serve := by
  obtain ⟨sendable, writes⟩ := sound.good id _ present
  have outside := sound.outside_of_writing present
  have others : ∀ other, other ≠ id → client.sent other = [] :=
    fun other different => sound.sent_of_orderly orderly different
  rcases Nat.eq_zero_or_pos size with rfl | positive
  · rw [writes.next_zero]
    exact sound.exit
  have grown : (WritePacket.image request).take (packet.position + size) =
      client.sent id ++ packet.offered.take size := by
    rw [take_add, writes.offered_take accepted, sent_writing present]
  rcases writes.next_count positive accepted with ⟨goesOn, moved⟩ | ⟨done, whole⟩
  · rw [wrote_writing buffers goesOn]
    exact sound.writePart outside others ⟨sendable, goesOn⟩ (by rw [NetCall.sent, moved, grown])
  · rw [done]
    rw [whole, take_length, WritePacket.image_eq sendable] at grown
    exact sound.writeLast buffers outside others sendable grown

theorem Sound.writeError {request : List Byte} {packet : WritePacket} (buffers : ReadBuffers)
    (sound : client.Sound serve) (present : client.calls id = some (.writing request packet))
    (errno : Errno) :
    (client.wrote id request [] buffers (packet.next (.error errno))).Sound serve := by
  obtain ⟨sendable, writes⟩ := sound.good id _ present
  rcases writes.next_error errno with ⟨goesOn, same⟩ | ⟨failed, _⟩
  · rw [wrote_writing buffers goesOn, append_nil]
    refine sound.setCall (sound.outside_of_writing present) ⟨sendable, goesOn⟩ ?_
    rw [NetCall.sent, same, sent_writing present]
  · rw [failed]
    exact sound.exit

theorem received_waiting {request replies : List Byte} (waiting : packet.Waiting) :
    client.received id request replies packet =
      { client.setCall id (.reading request packet) with replies := replies } := by
  cases packet with
  | header | body => rfl
  | returned result buffer => cases waiting

section

variable (sound : client.Sound serve)

include sound

variable {request : List Byte}

theorem Sound.read {size : Nat} (orderly : client.Orderly serve (.read id (.count size)))
    (present : client.calls id = some (.reading request packet)) (wanted : size ≤ packet.wanted)
    (available : size ≤ client.replies.length) :
    (client.received id request (client.replies.drop size)
      (packet.next (.data (client.replies.take size)))).Sound serve := by
  have waiting : packet.Waiting := (sound.good id _ present).1
  have split := (take_append_drop size client.replies).symm
  rcases Nat.eq_zero_or_pos size with rfl | positive
  · obtain ⟨buffer, failed⟩ := next_end waiting
    rw [take_zero, failed]
    exact sound.readFailed present .errRecvTimeout
  have oldest : client.unanswered.head? = some (id, request) := by
    obtain ⟨entry, first, same⟩ := Option.map_eq_some_iff.mp (orderly positive)
    rw [first, sound.request_eq present (mem_of_mem_head? first) same]
  have length : (client.replies.take size).length = size := by
    rw [length_take]
    omega
  rcases next_data waiting (by omega) (length.trans_le wanted) with
    ⟨still, got⟩ | ⟨reply, done, sendable, image⟩
  · rw [received_waiting still]
    exact sound.readPart present still got split (.inr oldest)
  · rw [done]
    exact sound.readLast present sendable image split oldest .succecc

theorem Sound.readError (present : client.calls id = some (.reading request packet))
    (errno : Errno) :
    (client.received id request client.replies (packet.next (.error errno))).Sound serve := by
  have waiting : packet.Waiting := (sound.good id _ present).1
  rcases next_error waiting errno with ⟨still, same⟩ | ⟨buffer, failed⟩
  · rw [received_waiting still]
    have got : (packet.next (.error errno)).got = packet.got ++ [] := by
      rw [same, append_nil]
    exact sound.readPart present still got rfl (.inl rfl)
  · rw [failed]
    exact sound.readFailed present .errRecvTimeout

theorem Sound.call (absent : client.calls id = none) (sendable : Sendable request) :
    (client.setCall id (.created request)).Sound serve := by
  refine sound.setCall (sound.outside ?_) sendable ?_
  · rw [absent]
    rintro _ ⟨⟩
  · rw [sent, absent]
    rfl

theorem Sound.start {call : NetCall} (present : client.calls id = some (.created request))
    (good : call.Good serve client.unanswered id) (nothing : call.sent = []) :
    (client.setCall id call).Sound serve := by
  refine sound.setCall (sound.outside ?_) good ?_
  · rw [present]
    rintro _ ⟨⟩
    rfl
  · rw [sent, present]
    exact nothing

end

inductive Effect (serve : List Byte → List Byte) (client : RpcClient) :
    ClientEvent → RpcClient → Prop where
  | call {id : Nat} {request : List Byte} (absent : client.calls id = none) :
      Effect serve client (.call id request) (client.setCall id (.created request))
  | send {id : Nat} {request : List Byte} {buffers : ReadBuffers}
      (present : client.calls id = some (.created request)) :
      Effect serve client (.start id buffers)
        (client.setCall id (.writing request (.start request)))
  | skip {id : Nat} {request : List Byte} {buffers : ReadBuffers}
      (present : client.calls id = some (.created request)) :
      Effect serve client (.start id buffers)
        (client.setCall id (.reading request (.start buffers.headBuffer buffers.buffer)))
  | write {id size : Nat} {request : List Byte} {packet : WritePacket} {buffers : ReadBuffers}
      (present : client.calls id = some (.writing request packet))
      (accepted : size ≤ packet.offered.length) :
      Effect serve client (.write id (.count size) buffers)
        (client.wrote id request (packet.offered.take size) buffers (packet.next (.count size)))
  | writeError {id : Nat} {errno : Errno} {request : List Byte} {packet : WritePacket}
      {buffers : ReadBuffers} (present : client.calls id = some (.writing request packet)) :
      Effect serve client (.write id (.error errno) buffers)
        (client.wrote id request [] buffers (packet.next (.error errno)))
  | serve {request requests : List Byte}
      (found : firstPacket client.requests = some (request, requests)) :
      Effect serve client .serve
        { client with
          requests := requests, replies := client.replies ++ packetImage (serve request) }
  | read {id size : Nat} {request : List Byte} {packet : ReadPacket}
      (present : client.calls id = some (.reading request packet))
      (wanted : size ≤ packet.wanted) (available : size ≤ client.replies.length) :
      Effect serve client (.read id (.count size))
        (client.received id request (client.replies.drop size)
          (packet.next (.data (client.replies.take size))))
  | readError {id : Nat} {errno : Errno} {request : List Byte} {packet : ReadPacket}
      (present : client.calls id = some (.reading request packet)) :
      Effect serve client (.read id (.error errno))
        (client.received id request client.replies (packet.next (.error errno)))

theorem Step.effect (step : client.Step serve event reached) :
    Effect serve client event reached := by
  unfold Step RpcClient.step at step
  split at step
  next => cases step
  cases event with
  | call id request =>
    dsimp only at step
    split at step
    next absent =>
      cases step
      exact .call absent
    next => cases step
  | start id buffers =>
    dsimp only at step
    split at step
    next request present =>
      split at step
      next =>
        cases step
        exact .send present
      next =>
        cases step
        exact .skip present
    next => cases step
  | write id result buffers =>
    cases result with
    | count size =>
      dsimp only at step
      split at step
      next request packet present =>
        split at step
        next accepted =>
          cases step
          exact .write present accepted
        next => cases step
      next => cases step
    | error errno =>
      dsimp only at step
      split at step
      next request packet present =>
        cases step
        exact .writeError present
      next => cases step
  | serve =>
    dsimp only at step
    split at step
    next request requests found =>
      cases step
      exact .serve found
    next => cases step
  | read id result =>
    cases result with
    | count size =>
      dsimp only at step
      split at step
      next request packet present =>
        split at step
        next bounds =>
          cases step
          exact .read present bounds.1 bounds.2
        next => cases step
      next => cases step
    | error errno =>
      dsimp only at step
      split at step
      next request packet present =>
        cases step
        exact .readError present
      next => cases step

theorem Sound.step (sound : client.Sound serve) (taken : client.OrderlyStep serve event reached) :
    reached.Sound serve := by
  obtain ⟨step, orderly⟩ := taken
  cases Step.effect step with
  | call absent => exact sound.call absent orderly
  | send present => exact sound.start present ⟨sound.good _ _ present, .start _⟩ rfl
  | skip present => exact sound.start present ⟨waiting_start _, .inl rfl⟩ rfl
  | write present accepted => exact sound.write _ orderly present accepted
  | writeError present => exact sound.writeError _ present _
  | serve found => exact sound.serveNext found (orderly _ _ found)
  | read present wanted available => exact sound.read orderly present wanted available
  | readError present => exact sound.readError present _

theorem Sound.run {events : List ClientEvent} (sound : client.Sound serve)
    (run : Run (OrderlyStep serve) client events reached) : reached.Sound serve :=
  run.invariant (fun _ client => client.Sound serve)
    (fun _ _ _ _ before taken => before.step taken) [] sound

theorem calls_wrote (request accepted : List Byte) (buffers : ReadBuffers) (packet : WritePacket)
    (different : other ≠ id) :
    (client.wrote id request accepted buffers packet).calls other = client.calls other := by
  fun_cases wrote
  · exact client.calls_setCall_of_ne _ different
  · rfl
  · exact client.calls_setCall_of_ne _ different

theorem calls_received (request replies : List Byte) (packet : ReadPacket)
    (different : other ≠ id) :
    (client.received id request replies packet).calls other = client.calls other := by
  fun_cases received
  · exact client.calls_setCall_of_ne _ different
  · exact client.calls_setCall_of_ne _ different
  · exact client.calls_setCall_of_ne _ different

theorem Step.calls_eq (step : client.Step serve event reached)
    (different : event.caller ≠ some other) : reached.calls other = client.calls other := by
  have apart : ∀ id, event.caller = some id → other ≠ id := by
    rintro id caller rfl
    exact different caller
  cases Step.effect step with
  | call | send | skip => exact client.calls_setCall_of_ne _ (apart _ rfl)
  | write | writeError => exact calls_wrote _ _ _ _ (apart _ rfl)
  | serve found => rfl
  | read | readError => exact calls_received _ _ _ (apart _ rfl)

/-- As long as requests are not written into each other and only the call that waits longest
reads, a call that has read a reply has read the one to its own request. -/
theorem call_gets_own_reply {events : List ClientEvent}
    (run : Run (OrderlyStep serve) initial events client) {id : Nat} {request reply : List Byte}
    (returned : client.calls id = some (.returned request (some reply))) :
    reply = serve request :=
  (sound_initial.run run).good id _ returned

/-- `Orderly` for a client that has made no call with an id from `bound` on. -/
def OrderlyBelow (serve : List Byte → List Byte) (bound : Nat) (client : RpcClient) :
    ClientEvent → Prop
  | .call id request => id < bound ∧ request.length < 2 ^ 32
  | .start id _ => id < bound
  | .write id (.count _) _ =>
    id < bound ∧ ∀ other < bound, other ≠ id → ∀ call ∈ client.calls other, ¬ call.Midway
  | .write id (.error _) _ => id < bound
  | .serve => ∀ packet ∈ firstPacket client.requests, (serve packet.1).length < 2 ^ 32
  | .read id (.count size) =>
    id < bound ∧ (0 < size → client.unanswered.head?.map Prod.fst = some id)
  | .read id (.error _) => id < bound

instance : DecidablePred NetCall.Midway := fun call => by
  unfold NetCall.Midway
  split <;> infer_instance

instance (serve : List Byte → List Byte) (bound : Nat) (client : RpcClient) :
    DecidablePred (client.OrderlyBelow serve bound) := fun event => by
  unfold OrderlyBelow
  split <;> infer_instance

theorem OrderlyBelow.caller_lt {bound : Nat} (orderly : client.OrderlyBelow serve bound event)
    (caller : event.caller = some id) : id < bound := by
  cases event with
  | call own request =>
    cases caller
    exact orderly.1
  | start own buffers =>
    cases caller
    exact orderly
  | write own result buffers =>
    cases caller
    cases result with
    | count size => exact orderly.1
    | error errno => exact orderly
  | serve => cases caller
  | read own result =>
    cases caller
    cases result with
    | count size => exact orderly.1
    | error errno => exact orderly

theorem OrderlyBelow.orderly {bound : Nat} (orderly : client.OrderlyBelow serve bound event)
    (few : ∀ id, bound ≤ id → client.calls id = none) : client.Orderly serve event := by
  cases event with
  | call own request => exact orderly.2
  | start own buffers => trivial
  | write own result buffers =>
    cases result with
    | count size =>
      intro other call different present
      refine orderly.2 other ?_ different call present
      by_contra outside
      rw [few other (Nat.le_of_not_lt outside)] at present
      cases present
    | error errno => trivial
  | serve => exact fun request rest found => orderly (request, rest) found
  | read own result =>
    cases result with
    | count size => exact orderly.2
    | error errno => trivial

theorem OrderlyBelow.few {bound : Nat} (orderly : client.OrderlyBelow serve bound event)
    (step : client.Step serve event reached) (few : ∀ id, bound ≤ id → client.calls id = none) :
    ∀ id, bound ≤ id → reached.calls id = none := by
  intro id outside
  rw [Step.calls_eq step fun caller => Nat.not_lt.mpr outside (orderly.caller_lt caller)]
  exact few id outside

/-- The second call is made while the first one waits for its reply. -/
theorem call_gets_own_reply_pipelined :
    let buffers : ReadBuffers := ⟨[0, 0, 0, 0], [], rfl⟩
    let events : List ClientEvent :=
      [.call 0 [1, 2], .start 0 buffers, .write 0 (.count 4) buffers, .write 0 (.count 2) buffers,
        .call 1 [3], .serve, .start 1 buffers, .write 1 (.count 4) buffers,
        .write 1 (.count 1) buffers, .read 0 (.count 3), .serve, .read 0 (.count 1),
        .read 0 (.count 2), .read 1 (.count 4), .read 1 (.count 1)]
    ∃ client, Run (OrderlyStep List.reverse) initial events client ∧
      ∃ reply, client.calls 0 = some (.returned [1, 2] (some reply)) ∧ reply = [2, 1] := by
  intro buffers events
  have steps : ∀ (client : RpcClient) event reached, (∀ id, 2 ≤ id → client.calls id = none) →
      (if client.OrderlyBelow List.reverse 2 event then client.step List.reverse event
        else none) = some reached →
      client.OrderlyStep List.reverse event reached ∧ ∀ id, 2 ≤ id → reached.calls id = none := by
    intro client event reached few taken
    split at taken
    next orderly => exact ⟨⟨taken, orderly.orderly few⟩, orderly.few taken few⟩
    next => cases taken
  obtain ⟨client, run, checked⟩ := Run.exists_of_foldlM_of_valid steps initial (fun _ _ => rfl)
    events (fun client => decide (client.calls 0 = some (.returned [1, 2] (some [2, 1]))))
    (by decide +kernel)
  have present := of_decide_eq_true checked
  exact ⟨client, run, [2, 1], present, call_gets_own_reply run present⟩

/-- After a call that has failed to receive, the next one sends nothing and reads the reply to
the request of the first. -/
theorem failed_call_leaves_its_reply :
    let negation : RpcFunction := ⟨Bool, Bool, .bool, .bool, not⟩
    let serve : List Byte → List Byte := fun request =>
      (onRequest (bindAll [⟨.ofString (ascii "not"), negation⟩]) request).getD []
    let first := request Overload.bool (ascii "not") true
    let second := request Overload.bool (ascii "not") false
    let buffers : ReadBuffers := ⟨[0, 0, 0, 0], [], rfl⟩
    let events : List ClientEvent :=
      [.call 0 first, .start 0 buffers, .write 0 (.count 4) buffers, .write 0 (.count 12) buffers,
        .read 0 (.error .eagain), .read 0 (.error .other), .serve, .call 1 second,
        .start 1 buffers, .read 1 (.count 4), .read 1 (.count 11)]
    ∃ client reply, Run (Step serve) initial events client ∧
      client.calls 1 = some (.returned second (some reply)) ∧
      netCallResponse Overload.bool reply = some (⟨0, [], false⟩, ⟨reply, 11⟩) ∧
      netCallResponse Overload.bool (serve second) = some (⟨0, [], true⟩, ⟨serve second, 11⟩) := by
  intro negation serve first second buffers events
  have steps : ∀ (client : RpcClient) event reached,
      client.step serve event = some reached → client.Step serve event reached :=
    fun _ _ _ step => step
  obtain ⟨client, run, checked⟩ := Run.exists_of_foldlM steps initial events
    (fun client => decide (client.calls 1 = some (.returned second (some (serve first)))))
    (by decide +kernel)
  exact ⟨client, serve first, run, of_decide_eq_true checked, by decide, by decide⟩

end RpcClient

end Bitdb.Rpc
