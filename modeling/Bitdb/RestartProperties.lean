import Bitdb.ViewsProperties

/-! Closing a database and opening it again. Loading cannot read an empty data file. -/

set_option autoImplicit false

namespace Bitdb

open Base List Program

namespace Log

variable {crc : Crc32c} {log : Log}

def Full (log : Log) : Prop := ∀ file ∈ log.files, file.records ≠ []

variable {record : LogRecord}

theorem full_append {limit : Nat} :
    (log.append crc limit record).Full ↔ (∀ file ∈ log.older, file.records ≠ []) ∧
      (log.Fits crc limit record ∨ log.current.records ≠ []) := by
  by_cases fits : log.Fits crc limit record
  · simp only [append, fits, ↓reduceIte, Full, files]
    simp [or_imp, forall_and]
  · simp only [append, fits, ↓reduceIte, Full, files]
    simp [or_imp, forall_and]

theorem full_append_started {limit : Nat} {last : FileLog} (active : log.active = some last)
    (written : last.records ≠ []) : (log.append crc limit record).Full ↔ log.Full := by
  rw [full_append, Full, files, current, active]
  simp [written, or_imp, forall_and]

theorem full_append_unstarted {limit : Nat} (active : log.active = none)
    (started : log.active = none → log.older = []) :
    (log.append crc limit record).Full ↔ (encodeLogRecord crc record).length ≤ limit := by
  rw [full_append, started active, Fits, current, active]
  simp [FileLog.size]

theorem append_active (crc : Crc32c) (limit : Nat) (log : Log) (record : LogRecord) :
    ∃ last, (log.append crc limit record).active = some last ∧ last.records ≠ [] := by
  by_cases fits : log.Fits crc limit record
  · exact ⟨_, by rw [append, if_pos fits], by simp⟩
  · exact ⟨_, by rw [append, if_neg fits], by simp⟩

end Log

/-- A call that writes: a record that one write transfers whole, or a tombstone. -/
def Call.Writes (crc : Crc32c) : Call → Prop
  | .put key value => key.empty = false ∧
      (encodeLogRecord crc (putRecord key value)).length ≤ 2 ^ 31 - 4096
  | .get _ => False
  | .delete key => key.empty = false

def firstRecord : List Call → Option LogRecord
  | [] => none
  | .put key value :: _ => some (putRecord key value)
  | .get _ :: rest => firstRecord rest
  | .delete _ :: rest => firstRecord rest

/-- Opening the directory again succeeds, and every key reads as it did before. -/
def Reopens (env : Platform) (options : Options) (session : Session) : Prop :=
  ∃ db reached, (openDb env options false).run session.world = (.ok db, reached) ∧
    ∀ key, ((get env key true).run ⟨db, reached⟩).1 = ((get env key true).run session).1

theorem Log.Readable.tombstone {crc : Crc32c} {log : Log} {state : KeyState} {key : Bytes}
    {slot : Slot} (readable : log.Readable crc)
    (replayed : Journal.replay .empty (log.entries crc) = some state)
    (live : state.live key.cString = some slot) : (deleteRecord key).Storable crc := by
  obtain ⟨found, member, carries⟩ := Log.live_record replayed live
  obtain ⟨realKey, txnId, tagged⟩ := readable.tagged found member
  obtain ⟨otherKey, otherId, decoded, same⟩ := carries.decoded
  rw [tagged.decode] at decoded
  cases decoded
  rw [Bytes.cString_ofString tagged.nulFree] at same
  have positive := encodeVarint64_length_pos txnId
  have deleted : (deleteRecord key).Tagged key.cString nonTxnId :=
    tagged_cString key [] .deleted zero_small
  refine (readable.whole found member).of_shorter deleted.keyed ?_ (Nat.zero_le _)
  rw [tagged.split, same, deleteRecord, length_append, length_append]
  have one : (encodeVarint64 nonTxnId).length = 1 := by decide
  omega

structure Written (env : Platform) (options : Options) (history : List Call) (session : Session)
    (log : Log) (state : KeyState) : Prop where
  holds : Holds env session log state
  readable : log.Readable env.crc
  plain : PlainDir session.world.fs session.db.options.dirPath.level
  same : session.db.options = options
  last : ∀ file, log.active = some file → file.records ≠ []
  first :
    match firstRecord history with
    | none => log.active = none
    | some record => log.active ≠ none ∧
        (log.Full ↔ (encodeLogRecord env.crc record).length ≤ options.dataFileSize)

theorem firstRecord_append (history : List Call) (call : Call) :
    firstRecord (history ++ [call]) = match firstRecord history with
      | some record => some record
      | none => firstRecord [call] := by
  induction history with
  | nil => rfl
  | cons first rest ih =>
    cases first with
    | put key value => rfl
    | get | delete => exact ih

section Step

variable {env : Platform} {options : Options} {history : List Call} {session : Session}
  {log : Log} {state : KeyState}

section

variable (written : Written env options history session log state)

include written

theorem Written.append {reached : Session} {state' : KeyState} {record : LogRecord}
    {key : List Byte} {txnId : UInt64} {call : Call} (storable : record.Storable env.crc)
    (tagged : record.Tagged key txnId) (holds : Holds env reached
      (log.append env.crc session.limit record) state') (frame : CallFrame session reached)
    (recorded : firstRecord history = none → firstRecord [call] = some record) :
    Written env options (history ++ [call]) reached
      (log.append env.crc session.limit record) state' := by
  refine ⟨holds, written.readable.append storable tagged, frame.plain written.plain,
    frame.options.trans written.same, ?_, ?_⟩
  · intro file active
    obtain ⟨last, found, nonempty⟩ := log.append_active env.crc session.limit record
    rw [found] at active
    cases active
    exact nonempty
  · have first := written.first
    obtain ⟨newest, active, _⟩ := log.append_active env.crc session.limit record
    have there : (log.append env.crc session.limit record).active ≠ none := by
      rw [active]
      exact Option.some_ne_none newest
    rw [firstRecord_append]
    cases earlier : firstRecord history with
    | none =>
      rw [earlier] at first
      rw [recorded earlier]
      refine ⟨there, ?_⟩
      rw [← written.same]
      exact Log.full_append_unstarted first written.holds.attached.started
    | some oldest =>
      rw [earlier] at first
      obtain ⟨started, full⟩ := first
      obtain ⟨last, found⟩ := Option.ne_none_iff_exists'.mp started
      exact ⟨there, (Log.full_append_started found (written.last last found)).trans full⟩

theorem Written.run_put {key value : Bytes} (writes : (Call.put key value).Writes env.crc) :
    ∃ reached log' state', ((Call.put key value).run env).run session =
        (.ok (.status .ok), reached) ∧
      Written env options (history ++ [.put key value]) reached log' state' := by
  obtain ⟨nonempty, short⟩ := writes
  obtain ⟨reached, ran, holds, frame, _⟩ := written.holds.run_put nonempty value
  have tagged : (putRecord key value).Tagged key.cString nonTxnId :=
    tagged_cString key value.cString .normal zero_small
  exact ⟨reached, _, _, run_bind_ok ran,
    written.append ⟨tagged.keyed, short⟩ tagged holds frame fun _ => rfl⟩

theorem Written.first_of_live {key : List Byte} {slot : Slot} (live : state.live key = some slot) :
    firstRecord history ≠ none := by
  intro none
  have first := written.first
  rw [none] at first
  obtain ⟨found, member, _⟩ := Log.live_record written.holds.replayed live
  rw [Log.records, Log.files, written.holds.attached.started first, first] at member
  cases member

theorem Written.run_delete {key : Bytes} (writes : (Call.delete key).Writes env.crc) :
    ∃ status reached log' state', ((Call.delete key).run env).run session =
        (.ok (.status status), reached) ∧ status.isOk ∧
      Written env options (history ++ [.delete key]) reached log' state' := by
  cases live : state.live key.cString with
  | none =>
    have ran := written.holds.run_delete_missing writes live
    refine ⟨_, session, log, state, run_bind_ok ran, rfl, ⟨written.holds,
      written.readable, written.plain, written.same, written.last, ?_⟩⟩
    have first := written.first
    rw [firstRecord_append]
    cases earlier : firstRecord history with
    | none | some =>
      rw [earlier] at first
      exact first
  | some slot =>
    obtain ⟨reached, ran, holds, frame, _⟩ := written.holds.run_delete writes live
    have tagged : (deleteRecord key).Tagged key.cString nonTxnId :=
      tagged_cString key [] .deleted zero_small
    have storable := written.readable.tombstone written.holds.replayed live
    exact ⟨_, reached, _, _, run_bind_ok ran, rfl,
      written.append storable tagged holds frame fun none =>
        absurd none (written.first_of_live live)⟩

end

theorem Written.run (calls history : List Call) (session : Session) (log : Log)
    (state : KeyState) (written : Written env options history session log state)
    (writes : ∀ call ∈ calls, call.Writes env.crc) :
    (∀ outcome ∈ (runCalls env calls session).1, ∃ status, outcome = .ok (.status status) ∧
        status.isOk) ∧
      ∃ log' state', Written env options (history ++ calls) (runCalls env calls session).2
        log' state' := by
  induction calls generalizing history session log state with
  | nil => exact ⟨(fun _ member => by cases member), log, state, by simpa [runCalls] using written⟩
  | cons call rest ih =>
    have step : ∃ status reached log' state', (call.run env).run session =
        (.ok (.status status), reached) ∧ status.isOk ∧
          Written env options (history ++ [call]) reached log' state' := by
      cases call with
      | put key value =>
        obtain ⟨reached, log', state', ran, written'⟩ := written.run_put (writes _ mem_cons_self)
        exact ⟨_, reached, log', state', ran, rfl, written'⟩
      | get key => cases writes _ mem_cons_self
      | delete key => exact written.run_delete (writes _ mem_cons_self)
    obtain ⟨status, reached, log', state', ran, isOk, written'⟩ := step
    obtain ⟨outcomes, later⟩ := ih (history ++ [call]) reached log' state' written'
      fun other member => writes other (mem_cons_of_mem _ member)
    simp only [runCalls, ran]
    refine ⟨?_, by simpa using later⟩
    intro outcome member
    rcases mem_cons.mp member with rfl | member
    · exact ⟨status, rfl, isOk⟩
    · exact outcomes outcome member

theorem Holds.get_eq {first second : Session} (here : Holds env first log state)
    (there : Holds env second log state) (whole : log.Whole env.crc) (key : Bytes) :
    ((get env key true).run first).1 = ((get env key true).run second).1 := by
  cases empty : key.empty with
  | true => rw [run_get_empty empty true, run_get_empty empty true]
  | false =>
    rw [here.run_get whole empty, there.run_get whole empty]
    cases state.live key.cString <;> rfl

theorem Written.reopens_iff (written : Written env options history session log state)
    (valid : checkOptions options = .ok ()) : Reopens env options session ↔ log.Full := by
  have attached := written.holds.attached
  have plain := written.plain
  have stored := attached.stored
  rw [written.same] at plain stored
  by_cases full : log.Full
  · refine iff_of_true ?_ full
    obtain ⟨db, opened, loaded⟩ := run_openDepth_loaded valid attached.reliable plain stored
      attached.started (fun file member => ⟨written.readable.files file member, full file member⟩)
      written.holds.replayed
    exact ⟨db, session.world, opened, fun key =>
      loaded.holds.get_eq written.holds written.readable.whole key⟩
  · refine iff_of_false ?_ full
    rintro ⟨db, reached, opened, _⟩
    have empty : ∃ file ∈ log.files, file.records = [] := by
      simpa [Log.Full] using full
    obtain ⟨status, loaded, failed, _⟩ := run_loadAll_emptyFile log attached.reliable plain stored
      attached.started written.readable.files empty
    rw [openDb, run_openDepth_failed false valid stored.present failed] at opened
    cases opened

end Step

/-- Clean restart: closing a database that was started on an empty directory and opening
it again shows the same map exactly when the first record it ever appended, if any, was
no larger than the size limit. -/
theorem reopens_iff_first_record_fits (env : Platform) (world : World) (options : Options)
    (mergeAfterOpen : Bool) (calls : List Call) (empty : EmptyDir world)
    (named : options.dirPath.root ≠ "") (top : options.dirPath.level = 0)
    (positive : 0 < options.dataFileSize) (writes : ∀ call ∈ calls, call.Writes env.crc) :
    ∃ db opened, (openDb env options mergeAfterOpen).run world = (.ok db, opened) ∧
      (∀ outcome ∈ (runCalls env calls ⟨db, opened⟩).1,
        ∃ status, outcome = .ok (.status status) ∧ status.isOk) ∧
      (Reopens env options (runCalls env calls ⟨db, opened⟩).2 ↔
        ∀ record, firstRecord calls = some record →
          (encodeLogRecord env.crc record).length ≤ options.dataFileSize) := by
  obtain ⟨db, opened, loaded⟩ := empty.run_openDb env mergeAfterOpen
    (checkOptions_ok named positive) top
  have started : Written env options [] ⟨db, world⟩ .empty .empty := by
    refine ⟨loaded.holds, ⟨(fun _ member => by cases member), (fun _ member => by cases member)⟩,
      ?_, loaded.options, (fun _ active => by cases active), rfl⟩
    rw [loaded.options, top]
    exact empty.plain
  obtain ⟨succeeded, log, state, written⟩ := Written.run calls [] ⟨db, world⟩ _ _ started writes
  refine ⟨db, world, opened, succeeded, ?_⟩
  rw [written.reopens_iff (checkOptions_ok named positive)]
  have first := written.first
  rw [nil_append] at first
  cases recorded : firstRecord calls with
  | none =>
    rw [recorded] at first
    refine iff_of_true ?_ fun record impossible => by cases impossible
    intro file member
    rw [Log.files, written.holds.attached.started first, first] at member
    cases member
  | some record =>
    rw [recorded] at first
    rw [first.2]
    exact ⟨fun fits other same => by cases same; exact fits, fun fits => fits record rfl⟩

theorem reopens_after_overwrite :
    let options : Options := ⟨⟨"db", 0⟩, 16, false, .skipListIndex⟩
    let key := Bytes.ofString [97]
    let calls : List Call := [.put key (.ofString [49]), .put key (.ofString [50]), .delete key]
    ∃ db opened, (openDb .reference options false).run (.on ⟨[∅]⟩) = (.ok db, opened) ∧
      Reopens .reference options (runCalls .reference calls ⟨db, opened⟩).2 := by
  obtain ⟨db, opened, ran, _, reopens⟩ := reopens_iff_first_record_fits .reference
    (.on ⟨[∅]⟩) ⟨⟨"db", 0⟩, 16, false, .skipListIndex⟩ false
    [.put (.ofString [97]) (.ofString [49]), .put (.ofString [97]) (.ofString [50]),
      .delete (.ofString [97])] ⟨rfl, rfl⟩ (by decide) rfl (by decide) (by
      intro call member
      simp only [mem_cons, not_mem_nil, or_false] at member
      rcases member with rfl | rfl | rfl
      · exact ⟨rfl, by decide +kernel⟩
      · exact ⟨rfl, by decide +kernel⟩
      · exact rfl)
  refine ⟨db, opened, ran, reopens.mpr ?_⟩
  intro record first
  cases first
  decide +kernel

/-- A first record of ten bytes under a limit of four: `Put` succeeds and leaves the
empty file it was too large for, and the next `Open` fails. -/
theorem open_fails_after_large_first_record :
    let options : Options := ⟨⟨"db", 0⟩, 4, false, .skipListIndex⟩
    let call : Call := .put (.ofString [97]) (.ofString [49])
    let (opened, world) := (openDb .reference options false).run (.on ⟨[∅]⟩)
    ∃ db, opened = .ok db ∧ ((call.run .reference).run ⟨db, world⟩).1 = .ok (.status .ok) ∧
      ¬ Reopens .reference options ((call.run .reference).run ⟨db, world⟩).2 := by
  refine ⟨_, rfl, rfl, ?_⟩
  rintro ⟨db, reached, opened, _⟩
  have failed : ((openDb .reference ⟨⟨"db", 0⟩, 4, false, .skipListIndex⟩ false).run
      _).1.isOk = true := congrArg (fun result => result.1.isOk) opened
  revert failed
  decide +kernel

end Bitdb
