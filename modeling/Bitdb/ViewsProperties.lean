import Bitdb.DbOpenProperties
import Mathlib.Data.List.Induction

/-! Clients of an open database: sequences of calls and their replies. It answers like a map of C
strings, and when that is a map of bytes. A call that returns a failed status leaves the object
usable. -/

set_option autoImplicit false

namespace Bitdb

open Base

inductive Call where
  | put (key value : Bytes)
  | get (key : Bytes)
  | delete (key : Bytes)

inductive Reply where
  | status (status : Status)
  | value (value : List Byte)

def Call.run (env : Platform) : Call → Method Reply
  | .put key value => do return .status (← Bitdb.put env key value)
  | .get key => do return .value (← Bitdb.get env key true)
  | .delete key => do return .status (← Bitdb.delete env key)

def runCalls (env : Platform) : List Call → Session → List (Except Stop Reply) × Session
  | [], session => ([], session)
  | call :: rest, session =>
    let (outcome, middle) := (call.run env).run session
    let (outcomes, reached) := runCalls env rest middle
    (outcome :: outcomes, reached)

/-- The value of the last `Put` of a key that no `Delete` of it follows. -/
def lastValue (key : List Byte) (history : List Call) : Option (List Byte) :=
  history.foldl (fun value call =>
    match call with
    | .put other stored => if other.toString = key then some stored.toString else value
    | .get _ => value
    | .delete other => if other.toString = key then none else value) none

def expectedReply (history : List Call) : Call → Except Stop Reply
  | .put _ _ => .ok (.status .ok)
  | .get key =>
    match lastValue key.toString history with
    | some value => .ok (.value value)
    | none => .error (.failed (.notFound "index"
        ("index of key " ++ text key.toString ++ " not_found")))
  | .delete key =>
    if (lastValue key.toString history).isSome then .ok (.status .ok)
    else .ok (.status (.okWith "DB::Delete"
      ("key: " ++ text key.toString ++ " don't exist.")))

structure Bytes.Readable (bytes : Bytes) : Prop where
  inside : bytes.size ≤ bytes.memory.length
  ends : 0 ∈ bytes.memory

namespace Call

def key : Call → Bytes
  | .put key _ => key
  | .get key => key
  | .delete key => key

def method : Call → String
  | .put _ _ => "DB::Put"
  | .get _ => "DB::Get"
  | .delete _ => "DB::Delete"

/-- The outcome of a call, given the value that was found for its key. -/
def reply (call : Call) (found : Option (List Byte)) : Except Stop Reply :=
  if call.key.empty then .error (.failed (.invalidArgument call.method "key is empty"))
  else
    match call, found with
    | .put _ _, _ => .ok (.status .ok)
    | .get _, some value => .ok (.value value)
    | .get key, none => .error (.failed (.notFound "index"
        ("index of key " ++ text key.toString ++ " not_found")))
    | .delete _, some _ => .ok (.status .ok)
    | .delete key, none => .ok (.status (.okWith "DB::Delete"
        ("key: " ++ text key.toString ++ " don't exist.")))

/-- What a call does to a map, with one way to read keys and values. -/
def store (reading : Bytes → List Byte) (map : List Byte → Option (List Byte)) (call : Call) :
    List Byte → Option (List Byte) :=
  if call.key.empty then map
  else
    match call with
    | .put key value => Function.update map (reading key) (some (reading value))
    | .get _ => map
    | .delete key => Function.update map (reading key) none

def Over (keys values : Set Bytes) : Call → Prop
  | .put key value => key ∈ keys ∧ value ∈ values
  | .get key => key ∈ keys
  | .delete key => key ∈ keys

end Call

def stored (reading : Bytes → List Byte) (calls : List Call) : List Byte → Option (List Byte) :=
  calls.foldl (Call.store reading) fun _ => none

open List Program Function Option Call

def Call.Short (crc : Crc32c) : Call → Prop
  | .put key value => (encodeLogRecord crc (putRecord key value)).length < 2 ^ 31 - 4096
  | .get _ => True
  | .delete key => (encodeLogRecord crc (deleteRecord key)).length < 2 ^ 31 - 4096

def Session.Stores (env : Platform) (session : Session)
    (map : List Byte → Option (List Byte)) : Prop :=
  ∃ log state, Holds env session log state ∧ log.Whole env.crc ∧
    ∀ key, (state.live key).map (·.value) = map key

namespace Call

variable {call : Call} {key value : Bytes}

theorem reply_empty (empty : call.key.empty = true) (found : Option (List Byte)) :
    call.reply found = .error (.failed (.invalidArgument call.method "key is empty")) :=
  if_pos empty

section

variable (nonempty : key.empty = false)

include nonempty

theorem reply_put (found : Option (List Byte)) :
    (Call.put key value).reply found = .ok (.status .ok) :=
  if_neg (ne_true_of_eq_false nonempty)

theorem reply_get_some (found : List Byte) :
    (Call.get key).reply (some found) = .ok (.value found) :=
  if_neg (ne_true_of_eq_false nonempty)

theorem reply_get_none :
    (Call.get key).reply none = .error (.failed (.notFound "index"
      ("index of key " ++ text key.toString ++ " not_found"))) :=
  if_neg (ne_true_of_eq_false nonempty)

theorem reply_delete_some (found : List Byte) :
    (Call.delete key).reply (some found) = .ok (.status .ok) :=
  if_neg (ne_true_of_eq_false nonempty)

theorem reply_delete_none :
    (Call.delete key).reply none = .ok (.status (.okWith "DB::Delete"
      ("key: " ++ text key.toString ++ " don't exist."))) :=
  if_neg (ne_true_of_eq_false nonempty)

end

variable (reading : Bytes → List Byte) (map : List Byte → Option (List Byte))

theorem store_empty (empty : call.key.empty = true) : call.store reading map = map :=
  if_pos empty

theorem store_put (nonempty : key.empty = false) :
    (Call.put key value).store reading map = update map (reading key) (some (reading value)) :=
  if_neg (ne_true_of_eq_false nonempty)

theorem store_get : (Call.get key).store reading map = map := ite_self map

theorem store_delete (nonempty : key.empty = false) :
    (Call.delete key).store reading map = update map (reading key) none :=
  if_neg (ne_true_of_eq_false nonempty)

end Call

section Step

variable {env : Platform} {session : Session} {map : List Byte → Option (List Byte)}

section

variable (stores : session.Stores env map)

include stores

theorem Session.Stores.step_empty {call : Call} (empty : call.key.empty = true)
    (found : Option (List Byte)) :
    (call.run env).run session = (call.reply found, session) ∧
      session.Stores env (call.store Bytes.cString map) := by
  rw [reply_empty empty, store_empty _ _ empty]
  refine ⟨?_, stores⟩
  cases call with
  | put key value => exact run_bind_error (run_put_empty empty value)
  | get key => exact run_bind_error (run_get_empty empty true)
  | delete key => exact run_bind_error (run_delete_empty empty)

section

variable {key : Bytes} (nonempty : key.empty = false)

include nonempty

theorem Session.Stores.step_put {value : Bytes} (short : (Call.put key value).Short env.crc)
    (found : Option (List Byte)) :
    ∃ reached, ((Call.put key value).run env).run session =
        ((Call.put key value).reply found, reached) ∧
      reached.Stores env ((Call.put key value).store Bytes.cString map) := by
  obtain ⟨log, state, holds, whole, agrees⟩ := stores
  obtain rfl : contentsOf state.live = map := funext agrees
  obtain ⟨reached, ran, holds', _, _⟩ := holds.run_put nonempty value
  have tagged : (putRecord key value).Tagged key.cString nonTxnId :=
    tagged_cString key value.cString .normal zero_small
  rw [reply_put nonempty, store_put _ _ nonempty]
  exact ⟨reached, run_bind_ok ran, _, _, holds', whole.append ⟨tagged.keyed, Nat.le_of_lt short⟩,
    congrFun (contentsOf_update state.live key.cString (some ⟨_, value.cString⟩))⟩

theorem Session.Stores.step_get :
    ((Call.get key).run env).run session = ((Call.get key).reply (map key.cString), session) := by
  obtain ⟨log, state, holds, whole, agrees⟩ := stores
  have ran := holds.run_get whole nonempty
  rw [← agrees key.cString]
  cases live : state.live key.cString with
  | none =>
    rw [map_none, reply_get_none nonempty]
    rw [live] at ran
    exact run_bind_error ran
  | some slot =>
    rw [map_some, reply_get_some nonempty]
    rw [live] at ran
    exact run_bind_ok ran

theorem Session.Stores.step_delete (short : (Call.delete key).Short env.crc) :
    ∃ reached, ((Call.delete key).run env).run session =
        ((Call.delete key).reply (map key.cString), reached) ∧
      reached.Stores env ((Call.delete key).store Bytes.cString map) := by
  obtain ⟨log, state, holds, whole, agrees⟩ := stores
  rw [store_delete _ _ nonempty, ← agrees key.cString]
  cases live : state.live key.cString with
  | none =>
    have ran := holds.run_delete_missing nonempty live
    have missing : map key.cString = none := by
      rw [← agrees key.cString, live, map_none]
    rw [map_none, reply_delete_none nonempty, ← missing, update_eq_self]
    exact ⟨session, run_bind_ok ran, log, state, holds, whole, agrees⟩
  | some slot =>
    obtain rfl : contentsOf state.live = map := funext agrees
    obtain ⟨reached, ran, holds', _, _⟩ := holds.run_delete nonempty live
    have tagged : (deleteRecord key).Tagged key.cString nonTxnId :=
      tagged_cString key [] .deleted zero_small
    rw [map_some, reply_delete_some nonempty]
    exact ⟨reached, run_bind_ok ran, _, _, holds', whole.append ⟨tagged.keyed, Nat.le_of_lt short⟩,
      congrFun (contentsOf_update state.live key.cString none)⟩

end

theorem Session.Stores.step {call : Call} (short : call.Short env.crc) :
    ∃ reached, (call.run env).run session = (call.reply (map call.key.cString), reached) ∧
      reached.Stores env (call.store Bytes.cString map) := by
  by_cases empty : call.key.empty = true
  · exact ⟨session, stores.step_empty empty _⟩
  have nonempty : call.key.empty = false := Bool.eq_false_iff.mpr empty
  cases call with
  | put key value => exact stores.step_put nonempty short _
  | get key =>
    rw [store_get]
    exact ⟨session, stores.step_get nonempty, stores⟩
  | delete key => exact stores.step_delete nonempty short

end

theorem Session.Stores.run (calls : List Call) (session : Session)
    (map : List Byte → Option (List Byte)) (stores : session.Stores env map)
    (short : ∀ call ∈ calls, call.Short env.crc) {position : Nat} {call : Call}
    (asked : calls[position]? = some call) :
    (runCalls env calls session).1[position]? =
      some (call.reply ((calls.take position).foldl (store Bytes.cString) map
        call.key.cString)) := by
  induction calls generalizing map session position with
  | nil => cases asked
  | cons first rest ih =>
    obtain ⟨reached, ran, stores'⟩ := stores.step (short first mem_cons_self)
    simp only [runCalls, ran]
    cases position with
    | zero =>
      cases asked
      rfl
    | succ position =>
      exact ih reached _ stores'
        (fun other member => short other (mem_cons_of_mem _ member)) asked

end Step

theorem stores_empty {env : Platform} {session : Session}
    (holds : Holds env session .empty .empty) : session.Stores env fun _ => none :=
  ⟨.empty, .empty, holds, (fun _ member => by cases member), fun _ => rfl⟩

theorem getElem?_length_takeWhile {memory : List Byte} (ends : 0 ∈ memory) :
    memory[(memory.takeWhile (· ≠ 0)).length]? = some 0 := by
  induction memory with
  | nil => cases ends
  | cons byte memory ih =>
    by_cases nul : byte = 0
    · simp [nul]
    · have later : 0 ∈ memory := (mem_cons.mp ends).resolve_left fun same => nul same.symm
      simpa [takeWhile_cons, nul] using ih later

theorem Bytes.Readable.plain_iff {bytes : Bytes} (readable : bytes.Readable) :
    bytes.Plain ↔ bytes.cString = bytes.toString := by
  refine ⟨Plain.cString_eq, fun same => ⟨same ▸ nul_not_mem_cString bytes, ?_⟩⟩
  have length : bytes.cString.length = bytes.size := by
    rw [same, toString, length_take, Nat.min_eq_left readable.inside]
  rw [← length]
  exact getElem?_length_takeWhile readable.ends

/-- A key comes back from behind its transaction id when the id fits the buffer it is written
through and the key is the same bytes as a C string. -/
theorem transaction_key_round_trips_iff (key : Bytes) (readable : key.Readable)
    (txnId : UInt64) :
    (encodeLogRecordWithTxnID key txnId >>= fun encoded =>
        decodeLogRecordWithTxnID (.ofString encoded)) = .ok (key.toString, txnId) ↔
      txnId.toNat < 2 ^ 28 ∧ key.Plain := by
  by_cases small : txnId.toNat < 2 ^ 28
  · have decoded := decodeLogRecordWithTxnID_encode key.cString small
    rw [encodeLogRecordWithTxnID_small key small]
    change decodeLogRecordWithTxnID _ = _ ↔ _
    rw [decoded, readable.plain_iff, and_iff_right small, Except.ok.injEq, Prod.mk.injEq,
      and_iff_left rfl]
  · rw [encodeLogRecordWithTxnID_large key small]
    constructor
    · intro ran
      cases ran
    · intro both
      exact absurd both.1 small

theorem transaction_key_round_trips_ascii :
    (encodeLogRecordWithTxnID (.ofString [107, 49]) 300 >>= fun encoded =>
      decodeLogRecordWithTxnID (.ofString encoded)) = .ok ([107, 49], 300) :=
  (transaction_key_round_trips_iff (.ofString [107, 49]) ⟨by decide, by decide⟩ 300).mpr
    ⟨by decide, Bytes.plain_ofString (by decide)⟩

theorem transaction_key_cut_at_nul :
    (encodeLogRecordWithTxnID (.ofString [97, 0, 98]) 1 >>= fun encoded =>
        decodeLogRecordWithTxnID (.ofString encoded)) = .ok ([97], 1) ∧
      encodeLogRecordWithTxnID (.ofString [97]) (2 ^ 28) = .error (.faulted .outOfBounds) := by
  decide +kernel

theorem stored_concat (reading : Bytes → List Byte) (calls : List Call) (call : Call) :
    stored reading (calls ++ [call]) = call.store reading (stored reading calls) := by
  rw [stored, foldl_append]
  rfl

section Exact

variable {keys values : Set Bytes}

/-- The keys can be told apart by their C strings as by their bytes. -/
def Faithful (keys : Set Bytes) : Prop :=
  ∀ first ∈ keys, ∀ second ∈ keys, first.empty = false → second.empty = false →
    (first.cString = second.cString ↔ first.toString = second.toString)

theorem Call.Over.key_mem {call : Call} (drawn : call.Over keys values) : call.key ∈ keys := by
  cases call with
  | put key value => exact drawn.1
  | get | delete => exact drawn

theorem stored_eq (faithful : Faithful keys)
    (whole : ∀ value ∈ values, value.cString = value.toString) {calls : List Call}
    (drawn : ∀ call ∈ calls, call.Over keys values) {key : Bytes} (member : key ∈ keys)
    (nonempty : key.empty = false) :
    stored Bytes.cString calls key.cString = stored Bytes.toString calls key.toString := by
  induction calls using List.reverseRecOn with
  | nil => rfl
  | append_singleton calls call ih =>
    have before := ih fun other present => drawn other (mem_append_left _ present)
    have last := drawn call (mem_append_right _ (mem_singleton_self call))
    rw [stored_concat, stored_concat]
    by_cases empty : call.key.empty = true
    · rw [store_empty _ _ empty, store_empty _ _ empty]
      exact before
    have full : call.key.empty = false := Bool.eq_false_iff.mpr empty
    cases call with
    | put other value =>
      have filled : other.empty = false := full
      have same := faithful key member other last.1 nonempty filled
      rw [store_put _ _ filled, store_put _ _ filled]
      simp only [update_apply, same, whole value last.2, before]
    | get other =>
      rw [store_get, store_get]
      exact before
    | delete other =>
      have filled : other.empty = false := full
      have same := faithful key member other last nonempty filled
      rw [store_delete _ _ filled, store_delete _ _ filled]
      simp only [update_apply, same, before]

theorem reply_get_inj {key : Bytes} (nonempty : key.empty = false)
    {first second : Option (List Byte)}
    (same : (Call.get key).reply first = (Call.get key).reply second) : first = second := by
  cases first with
  | none =>
    cases second with
    | none => rfl
    | some value =>
      rw [reply_get_none nonempty, reply_get_some nonempty] at same
      cases same
  | some value =>
    cases second with
    | none =>
      rw [reply_get_none nonempty, reply_get_some nonempty] at same
      cases same
    | some other =>
      rw [reply_get_some nonempty, reply_get_some nonempty] at same
      cases same
      rfl

theorem stored_put {key value : Bytes} (nonempty : key.empty = false)
    (reading : Bytes → List Byte) (asked : List Byte) :
    stored reading [.put key value] asked =
      if asked = reading key then some (reading value) else none := by
  have store : stored reading [.put key value] =
      update (fun _ => none) (reading key) (some (reading value)) :=
    store_put reading _ nonempty
  rw [store, update_apply]

/-- A `Put` and a `Get` cannot tell the two ways to read apart. -/
def Indistinct (keys values : Set Bytes) : Prop :=
  ∀ first ∈ keys, ∀ second ∈ keys, first.empty = false → second.empty = false →
    ∀ value ∈ values, stored Bytes.cString [.put first value] second.cString =
      stored Bytes.toString [.put first value] second.toString

theorem Indistinct.faithful (indistinct : Indistinct keys values) (someValue : values.Nonempty) :
    Faithful keys := by
  obtain ⟨value, valueIn⟩ := someValue
  intro first firstIn second secondIn firstFilled secondFilled
  have same := indistinct second secondIn first firstIn secondFilled firstFilled value valueIn
  rw [stored_put secondFilled, stored_put secondFilled] at same
  by_cases equal : first.cString = second.cString
  · rw [if_pos equal] at same
    refine iff_of_true equal ?_
    by_contra different
    rw [if_neg different] at same
    cases same
  · rw [if_neg equal] at same
    refine iff_of_false equal fun identical => ?_
    rw [if_pos identical] at same
    cases same

theorem Indistinct.cString_eq (indistinct : Indistinct keys values)
    (someKey : ∃ key ∈ keys, key.empty = false) {value : Bytes} (member : value ∈ values) :
    value.cString = value.toString := by
  obtain ⟨key, keyIn, filled⟩ := someKey
  have same := indistinct key keyIn key keyIn filled filled value member
  rw [stored_put filled, stored_put filled, if_pos rfl, if_pos rfl] at same
  exact Option.some.inj same

end Exact

/-- A database answers from the bytes of the keys and values, in every run over given views, just
when C strings tell the keys apart as their bytes do and the values are proper C strings. -/
theorem results_of_bytes_iff (env : Platform) (world : World) (options : Options)
    (mergeAfterOpen : Bool) (empty : EmptyDir world) (named : options.dirPath.root ≠ "")
    (top : options.dirPath.level = 0) (positive : 0 < options.dataFileSize)
    (keys values : Set Bytes) (readable : ∀ view ∈ keys ∪ values, view.Readable)
    (short : ∀ call : Call, call.Over keys values → call.Short env.crc)
    (someKey : ∃ key ∈ keys, key.empty = false) (someValue : values.Nonempty) :
    ∃ db reached, (openDb env options mergeAfterOpen).run world = (.ok db, reached) ∧
      ((∀ calls : List Call, (∀ call ∈ calls, call.Over keys values) →
        ∀ (position : Nat) (call : Call), calls[position]? = some call →
          (runCalls env calls ⟨db, reached⟩).1[position]? = some (call.reply
            (stored Bytes.toString (calls.take position) call.key.toString))) ↔
        Faithful keys ∧ ∀ value ∈ values, value.Plain) := by
  obtain ⟨db, opened, loaded⟩ := empty.run_openDb env mergeAfterOpen
    (checkOptions_ok named positive) top
  have answered : ∀ calls : List Call, (∀ call ∈ calls, call.Over keys values) →
      ∀ (position : Nat) (call : Call), calls[position]? = some call →
        (runCalls env calls ⟨db, world⟩).1[position]? = some (call.reply
          (stored Bytes.cString (calls.take position) call.key.cString)) :=
    fun calls drawn position call asked => (stores_empty loaded.holds).run calls _ _
      (fun other member => short other (drawn other member)) asked
  refine ⟨db, world, opened, fun exactly => ?_, fun ⟨faithful, plain⟩ => ?_⟩
  · have indistinct : Indistinct keys values := by
      intro first firstIn second secondIn firstFilled secondFilled value valueIn
      have drawn : ∀ call ∈ [Call.put first value, .get second], call.Over keys values := by
        intro call member
        rcases mem_cons.mp member with rfl | later
        · exact ⟨firstIn, valueIn⟩
        · rw [mem_singleton.mp later]
          exact secondIn
      have actual := answered _ drawn 1 (.get second) rfl
      have wanted := exactly _ drawn 1 (.get second) rfl
      exact reply_get_inj secondFilled (Option.some.inj (actual.symm.trans wanted))
    exact ⟨indistinct.faithful someValue, fun value member =>
      (readable value (.inr member)).plain_iff.mpr (indistinct.cString_eq someKey member)⟩
  · intro calls drawn position call asked
    rw [answered calls drawn position call asked]
    have present : call ∈ calls := mem_of_getElem? asked
    by_cases nothing : call.key.empty = true
    · rw [Call.reply_empty nothing, Call.reply_empty nothing]
    · have exactValues : ∀ value ∈ values, value.cString = value.toString :=
        fun value member => (plain value member).cString_eq
      rw [stored_eq faithful exactValues (fun other member => drawn other (mem_of_mem_take member))
        (Call.Over.key_mem (drawn call present)) (Bool.eq_false_iff.mpr nothing)]

theorem results_of_bytes_letters :
    let keys : Set Bytes := {view | view = .ofString [97] ∨ view = .ofString [98]}
    let values : Set Bytes := {view | view = .ofString [49]}
    let options : Options := ⟨⟨"db", 0⟩, 64, false, .skipListIndex⟩
    ∃ db reached, (openDb .reference options true).run (.on ⟨[∅]⟩) = (.ok db, reached) ∧
      ∀ calls : List Call, (∀ call ∈ calls, call.Over keys values) →
        ∀ (position : Nat) (call : Call), calls[position]? = some call →
          (runCalls .reference calls ⟨db, reached⟩).1[position]? = some (call.reply
            (stored Bytes.toString (calls.take position) call.key.toString)) := by
  intro keys values options
  have readable : ∀ view ∈ keys ∪ values, view.Readable := by
    rintro view ((rfl | rfl) | rfl)
    · exact ⟨by decide, by decide⟩
    · exact ⟨by decide, by decide⟩
    · exact ⟨by decide, by decide⟩
  have short : ∀ call : Call, call.Over keys values → call.Short Platform.reference.crc := by
    intro call drawn
    cases call with
    | put key value =>
      obtain ⟨rfl | rfl, rfl⟩ := drawn
      · show _ < _
        decide +kernel
      · show _ < _
        decide +kernel
    | get key => trivial
    | delete key =>
      obtain rfl | rfl := drawn
      · show _ < _
        decide +kernel
      · show _ < _
        decide +kernel
  have faithful : Faithful keys := by
    rintro first (rfl | rfl) second (rfl | rfl) _ _
    · decide
    · decide
    · decide
    · decide
  have plain : ∀ value ∈ values, value.Plain := by
    rintro value rfl
    exact Bytes.plain_ofString (by decide)
  obtain ⟨db, reached, opened, exactly⟩ := results_of_bytes_iff .reference (.on ⟨[∅]⟩) options true
    ⟨rfl, rfl⟩ (by decide) rfl (by decide) keys values readable short
    ⟨.ofString [97], .inl rfl, rfl⟩ ⟨.ofString [49], rfl⟩
  exact ⟨db, reached, opened, exactly.mpr ⟨faithful, plain⟩⟩

theorem get_finds_prefix_of_key :
    let calls : List Call := [.put (.ofString [97, 0, 98]) (.ofString [49]), .get (.ofString [97])]
    let options : Options := ⟨⟨"db", 0⟩, 64, false, .skipListIndex⟩
    ∃ db reached, (openDb .reference options true).run (.on ⟨[∅]⟩) = (.ok db, reached) ∧
      (runCalls .reference calls ⟨db, reached⟩).1[1]? = some (.ok (.value [49])) ∧
      (Call.get (.ofString [97])).reply (stored Bytes.toString (calls.take 1) [97]) =
        .error (.failed (.notFound "index" "index of key a not_found")) := by
  intro calls options
  have empty : EmptyDir (.on ⟨[∅]⟩) := ⟨rfl, rfl⟩
  have valid : checkOptions options = .ok () := checkOptions_ok (by decide) (by decide)
  obtain ⟨db, opened, loaded⟩ := empty.run_openDb .reference true valid rfl
  refine ⟨db, _, opened, ?_, rfl⟩
  have short : ∀ call ∈ calls, call.Short Platform.reference.crc := by
    intro call member
    rcases mem_cons.mp member with rfl | later
    · show _ < _
      decide +kernel
    · rw [mem_singleton.mp later]
      trivial
  have asked : calls[1]? = some (.get (.ofString [97])) := rfl
  exact (stores_empty loaded.holds).run calls _ _ short asked

/-- A call with proper C strings whose record one write transfers whole. -/
def Call.Proper (crc : Crc32c) : Call → Prop
  | .put key value => key.Plain ∧ key.empty = false ∧ value.Plain ∧
      (encodeLogRecord crc (putRecord key value)).length < 2 ^ 31 - 4096
  | .get key => key.Plain ∧ key.empty = false
  | .delete key => key.Plain ∧ key.empty = false ∧
      (encodeLogRecord crc (deleteRecord key)).length < 2 ^ 31 - 4096

structure Answers (env : Platform) (session : Session) (history : List Call) : Prop where
  held : ∃ log state, Holds env session log state ∧ log.Whole env.crc ∧
    ∀ key, (state.live key).map (·.value) = lastValue key history

theorem lastValue_append (key : List Byte) (history : List Call) (call : Call) :
    lastValue key (history ++ [call]) = match call with
      | .put other stored =>
        if other.toString = key then some stored.toString else lastValue key history
      | .get _ => lastValue key history
      | .delete other => if other.toString = key then none else lastValue key history := by
  rw [lastValue, List.foldl_append]
  cases call <;> rfl

namespace Call.Proper

variable {crc : Crc32c} {call : Call}

theorem short (proper : call.Proper crc) : call.Short crc := by
  cases call with
  | put key value => exact proper.2.2.2
  | get key => trivial
  | delete key => exact proper.2.2

theorem reply_eq (proper : call.Proper crc) (history : List Call) :
    call.reply (lastValue call.key.cString history) = expectedReply history call := by
  cases call with
  | put key value => exact reply_put proper.2.1 _
  | get key =>
    obtain ⟨plain, nonempty⟩ := proper
    rw [Call.key, plain.cString_eq, expectedReply]
    cases lastValue key.toString history with
    | none => exact reply_get_none nonempty
    | some value => exact reply_get_some nonempty value
  | delete key =>
    obtain ⟨plain, nonempty, _⟩ := proper
    rw [Call.key, plain.cString_eq, expectedReply]
    cases lastValue key.toString history with
    | none => exact reply_delete_none nonempty
    | some value => exact reply_delete_some nonempty value

theorem store_eq (proper : call.Proper crc) (history : List Call) :
    (call.store Bytes.cString fun key => lastValue key history) =
      fun key => lastValue key (history ++ [call]) := by
  funext asked
  rw [lastValue_append]
  cases call with
  | put key value =>
    obtain ⟨plain, nonempty, plainValue, _⟩ := proper
    rw [store_put _ _ nonempty, plain.cString_eq, plainValue.cString_eq, Function.update_apply]
    simp only [eq_comm]
  | get key => rw [store_get]
  | delete key =>
    obtain ⟨plain, nonempty, _⟩ := proper
    rw [store_delete _ _ nonempty, plain.cString_eq, Function.update_apply]
    simp only [eq_comm]

end Call.Proper

theorem foldl_store {crc : Crc32c} {calls : List Call}
    (proper : ∀ call ∈ calls, call.Proper crc) (history : List Call) :
    (calls.foldl (store Bytes.cString) fun key => lastValue key history) =
      fun key => lastValue key (history ++ calls) := by
  induction calls generalizing history with
  | nil => simp
  | cons first rest ih =>
    rw [forall_mem_cons] at proper
    rw [foldl_cons, proper.1.store_eq, ih proper.2]
    simp

theorem Answers.run {env : Platform} (calls history : List Call) (session : Session)
    (answers : Answers env session history) (proper : ∀ call ∈ calls, call.Proper env.crc)
    {position : Nat} {call : Call} (asked : calls[position]? = some call) :
    (runCalls env calls session).1[position]? =
      some (expectedReply (history ++ calls.take position) call) := by
  have stores : session.Stores env fun key => lastValue key history := answers.held
  rw [stores.run calls session _ (fun call member => (proper call member).short) asked,
    foldl_store fun call member => proper call (mem_of_mem_take member),
    (proper call (mem_of_getElem? asked)).reply_eq]

theorem answers_empty {env : Platform} {session : Session}
    (holds : Holds env session .empty .empty) : Answers env session [] where
  held := ⟨.empty, .empty, holds, (fun _ member => by cases member), fun _ => rfl⟩

end Bitdb
