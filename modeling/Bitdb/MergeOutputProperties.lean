import Bitdb.LiveProperties

/-! What `Merge` returns and what it leaves in the mergence directory, in every state of a
clean run. -/

set_option autoImplicit false

namespace Bitdb

open Base List Located

section Picked

variable {env : Platform} {session : Session} {log : Log} {keys : KeyState}

variable (live : Live env session log keys)

include live

theorem Live.pointsAt_iff {found : Located} (member : found ∈ log.records env.crc) :
    session.db.index.PointsAt found ↔
      ∃ slot, keys.live found.realKey = some slot ∧ slot.pst = found.1 := by
  obtain ⟨key, txnId, tagged⟩ := live.tagged found member
  have real : found.realKey = key := tagged.realKey found.1
  rw [Indexer.PointsAt, Indexer.get, real, Bytes.cString_ofString tagged.nulFree,
    live.holds.index, Option.map_eq_some_iff]

theorem Live.exists_live {key : List Byte} {slot : Slot} (here : keys.live key = some slot) :
    ∃ found ∈ session.liveRecords env log,
      found.realKey = key ∧ found.1 = slot.pst ∧ found.2.value = slot.value ∧
      found.2.type ≠ .deleted := by
  obtain ⟨found, member, carries⟩ := Log.live_record live.holds.replayed here
  obtain ⟨other, txnId, tagged⟩ := live.tagged found member
  have real : found.realKey = other := tagged.realKey found.1
  obtain ⟨realKey, id, decoded, same⟩ := carries.decoded
  obtain ⟨rfl, rfl⟩ := Prod.mk.inj (Except.ok.inj (tagged.decode.symm.trans decoded))
  rw [Bytes.cString_ofString tagged.nulFree] at same
  subst same
  refine ⟨found, mem_filter.mpr ⟨member, decide_eq_true ?_⟩, real, carries.pst,
    carries.value, carries.kept⟩
  rw [live.pointsAt_iff member, real]
  exact ⟨slot, here, carries.pst.symm⟩

theorem Live.nodup_live : ((session.liveRecords env log).map realKey).Nodup := by
  have ordered := (Log.records_pairwise live.holds.attached.stored.ascending live.keyed).filter
    fun found => decide (session.db.index.PointsAt found)
  rw [List.Nodup, pairwise_map]
  refine ordered.imp_of_mem fun {left right} here there before same => ?_
  have first := of_decide_eq_true (mem_filter.mp here).2
  have second := of_decide_eq_true (mem_filter.mp there).2
  rw [Indexer.PointsAt, same] at first
  exact before.ne (Option.some.inj (first.symm.trans second))

theorem Live.slot_of_live {found : Located} (picked : found ∈ session.liveRecords env log) :
    keys.live found.realKey = some ⟨found.1, found.2.value⟩ ∧ found.2.type ≠ .deleted := by
  obtain ⟨member, pointed⟩ := mem_filter.mp picked
  obtain ⟨slot, here, position⟩ := (live.pointsAt_iff member).mp (of_decide_eq_true pointed)
  obtain ⟨other, inside, _, there, value, kept⟩ := live.exists_live here
  have ordered := Log.records_pairwise live.holds.attached.stored.ascending live.keyed
  obtain rfl := Log.eq_of_position ordered (mem_filter.mp inside).1 member
    (there.trans position)
  rw [here, there, value]
  exact ⟨rfl, kept⟩

theorem Live.live_ne_nil_iff :
    session.db.index.liveRecords (log.records env.crc) ≠ [] ↔
      ∃ key, session.db.index.lookup key ≠ none := by
  constructor
  · intro nonempty
    obtain ⟨found, picked⟩ := exists_mem_of_ne_nil _ nonempty
    refine ⟨found.realKey, ?_⟩
    rw [live.holds.index, (live.slot_of_live picked).1]
    exact Option.some_ne_none _
  · rintro ⟨key, present⟩
    rw [live.holds.index] at present
    cases here : keys.live key with
    | none =>
      rw [here] at present
      exact absurd rfl present
    | some slot =>
      obtain ⟨found, picked, _⟩ := live.exists_live here
      exact ne_nil_of_mem picked

end Picked

section Output

variable {env : Platform} {session reached : Session} {log : Log} {keys : KeyState}
  {last : FileLog} {outcome : Except Stop Status}

theorem Merges.ok_iff (merges : Merges env session log last outcome reached)
    (noNull : ∀ fileId, session.db.olderFiles.lookup fileId ≠ some none) :
    outcome = .ok .ok ↔ (∀ file ∈ log.files, file.records ≠ []) ∧ session.liveRecords env log ≠ [] ∧
      PositionsEncodable env.crc session.limit
        (session.liveRecords env log) := by
  cases merges.ended with
  | nullFile fileId null => exact absurd null (noNull fileId)
  | emptyFile file member empty =>
    exact ⟨fun impossible => (by cases impossible), fun all => absurd empty (all.1 file member)⟩
  | overrun past =>
    exact ⟨fun impossible => (by cases impossible), fun all => absurd all.2.2 past⟩
  | nothing none =>
    exact ⟨fun impossible => (by cases impossible), fun all => absurd none all.2.1⟩
  | finished full some encodable _ => exact ⟨fun _ => ⟨full, some, encodable⟩, fun _ => rfl⟩

theorem Live.readLog (live : Live env session log keys)
    (full : ∀ file ∈ log.files, file.records ≠ []) :
    session.world.fs.readLog env.crc 0 = log.records env.crc :=
  live.resting.stored.readLog full fun file member =>
    (live.resting.readable.files file member).storable

theorem Live.merged_serves (live : Live env session log keys) :
    ∃ log', Serves env ((mergeDb env).run session).2 log' keys.live := by
  rcases live.run_mergeDb with ⟨_, ran⟩ | ⟨last, outcome, reached, active, ran, merges⟩
  · rw [ran]
    exact ⟨log, live.serves⟩
  · rw [ran]
    have records := Log.records_rotated active env.crc
    refine ⟨log.rotated last, merges.attached, ?_, ?_, ?_⟩
    · intro found member
      rw [records] at member
      exact live.serves.whole found member
    · rw [merges.index]
      exact live.serves.shows
    · rw [records]
      exact live.serves.carried

/-- `Merge` returns `Ok` exactly when there is nothing to merge yet, or no data file is empty,
some key is live and every new position fits the hint file. No `Get` is changed by it. -/
theorem merge_available_iff {world : World} {acts : List Act} (empty : EmptyDir world)
    (run : Run (Act.CleanStep env) (.closed world) acts (.running session)) :
    (((mergeDb env).run session).1 = .ok .ok ↔ session.db.activeFile = none ∨
      NoEmptyDataFile session.world.fs 0 ∧ (∃ key, session.db.index.lookup key ≠ none) ∧
        PositionsEncodable env.crc session.db.options.dataFileSize
          (session.db.index.liveRecords (session.world.fs.readLog env.crc 0))) ∧
      ∀ key, ((get env key true).run ((mergeDb env).run session).2).1 =
        ((get env key true).run session).1 := by
  obtain ⟨log, keys, live⟩ := sound_of_run empty run
  obtain ⟨log', serves⟩ := live.merged_serves
  refine ⟨?_, (serves.same_gets_iff live.serves).mpr fun _ _ => rfl⟩
  rw [live.resting.noEmptyDataFile_iff, live.holds.attached.active]
  rcases live.run_mergeDb with ⟨unstarted, ran⟩ | ⟨last, outcome, reached, active, ran, merges⟩
  · rw [ran, unstarted]
    exact ⟨fun _ => .inl rfl, fun _ => rfl⟩
  · rw [ran, active, merges.ok_iff live.noNull, live.live_ne_nil_iff]
    constructor
    · rintro ⟨full, present, encodable⟩
      rw [live.readLog full]
      exact .inr ⟨full, present, encodable⟩
    · rintro (impossible | ⟨full, present, encodable⟩)
      · cases impossible
      · rw [live.readLog full] at encodable
        exact ⟨full, present, encodable⟩

def oneKeySession : Session :=
  ((put .reference (.ofString [97]) (.ofString [49])).run
    ⟨DB.new ⟨⟨"db", 0⟩, 64, false, .skipListIndex⟩, .on ⟨[∅]⟩⟩).2

theorem oneKeySession_opening : Act.CleanStep .reference (.closed (.on ⟨[∅]⟩))
    (.open ⟨⟨"db", 0⟩, 64, false, .skipListIndex⟩ false)
    (.running ⟨DB.new ⟨⟨"db", 0⟩, 64, false, .skipListIndex⟩, .on ⟨[∅]⟩⟩) := by
  refine ⟨.opened rfl rfl, ?_, ?_, ?_⟩
  · rintro _ _ _ ⟨⟩
  · rintro _ ⟨⟩
  · rintro _ ⟨⟩

theorem oneKeySession_putting : Act.CleanStep .reference
    (.running ⟨DB.new ⟨⟨"db", 0⟩, 64, false, .skipListIndex⟩, .on ⟨[∅]⟩⟩)
    (.call (.put (.ofString [97]) (.ofString [49]))) (.running oneKeySession) := by
  refine ⟨.answered (Prod.ext ?_ rfl), ?_, ?_, ?_⟩
  · decide +kernel
  · rintro _ _ ⟨⟩
  · rintro _ ⟨⟩
  · show oneKeySession.world.WholeWrites
    decide +kernel

theorem cleanRun_oneKeySession : Run (Act.CleanStep .reference) (.closed (.on ⟨[∅]⟩))
    [.open ⟨⟨"db", 0⟩, 64, false, .skipListIndex⟩ false,
      .call (.put (.ofString [97]) (.ofString [49]))] (.running oneKeySession) :=
  .cons oneKeySession_opening (.cons oneKeySession_putting (.nil _))

theorem noEmptyDataFile_oneKeySession : NoEmptyDataFile oneKeySession.world.fs 0 := by decide +kernel

theorem merge_available_first :
    ((mergeDb .reference).run oneKeySession).1 = .ok .ok ∧
      ∀ key, ((get .reference key true).run ((mergeDb .reference).run oneKeySession).2).1 =
        ((get .reference key true).run oneKeySession).1 := by
  have present : oneKeySession.db.index.lookup [97] ≠ none := by decide +kernel
  have encodable : PositionsEncodable .castagnoli oneKeySession.db.options.dataFileSize
      (oneKeySession.db.index.liveRecords (oneKeySession.world.fs.readLog .castagnoli 0)) :=
    show ∀ placed ∈ mergedRecords .castagnoli oneKeySession.db.options.dataFileSize
      (oneKeySession.db.index.liveRecords (oneKeySession.world.fs.readLog .castagnoli 0)),
        placed.1.Encodable by decide +kernel
  obtain ⟨available, harmless⟩ := merge_available_iff ⟨rfl, rfl⟩ cleanRun_oneKeySession
  exact ⟨available.mpr (.inr ⟨noEmptyDataFile_oneKeySession, ⟨[97], present⟩, encodable⟩), harmless⟩

/-- The second of two merges in a row finds the empty file that the first one has left. -/
theorem second_merge_fails :
    let options : Options := ⟨⟨"db", 0⟩, 64, false, .skipListIndex⟩
    let session := ((put .reference (.ofString [97]) (.ofString [49])).run
      ⟨DB.new options, .on ⟨[∅]⟩⟩).2
    let first := (mergeDb .reference).run session
    (openDb .reference options false).run (.on ⟨[∅]⟩) = (.ok (DB.new options), .on ⟨[∅]⟩) ∧
      first.1 = .ok .ok ∧
      ((mergeDb .reference).run first.2).1 = .error (.failed emptyFileStatus) := by
  refine ⟨rfl, by decide +kernel, by decide +kernel⟩

variable {crc : Crc32c} {limit : Nat} {picked : List Located}

theorem mergedItems_keys : (mergedItems crc limit picked).map (·.key) = picked.map realKey := by
  rw [mergedItems, map_map]
  have fronts := map_fst_zip (Nat.le_of_eq (length_mergedRecords crc limit picked).symm)
  conv => rhs; rw [← fronts, map_map]
  rfl

theorem mergedItems_ne_nil (some : picked ≠ []) : mergedItems crc limit picked ≠ [] := by
  intro none
  have keys := congrArg (List.map (·.key)) none
  rw [mergedItems_keys] at keys
  exact some (map_eq_nil_iff.mp keys)

theorem mergedItems_placed : (mergedItems crc limit picked).map (·.placed) =
    mergedRecords crc limit picked := by
  rw [mergedItems, map_map]
  exact map_snd_zip (Nat.le_of_eq (length_mergedRecords crc limit picked))

theorem mergedItems_hints : (mergedItems crc limit picked).map (·.hint) =
    mergedHints crc limit picked := by
  rw [mergedItems, map_map]
  exact map_zip_eq_zipWith

theorem mem_mergedItems {item : MergedItem} (member : item ∈ mergedItems crc limit picked) :
    ∃ found, (found, item.placed) ∈ picked.zip (mergedRecords crc limit picked) ∧
      item.key = found.realKey ∧ item.placed.2 = found.copy ∧
      item.hint = hintRecord (Bytes.ofString found.realKey).cString item.placed.1 := by
  obtain ⟨⟨found, placed⟩, zipped, rfl⟩ := mem_map.mp member
  have copies : List.Forall₂ (fun found placed => placed.2 = copy found) picked
      (mergedRecords crc limit picked) := by
    have same : List.Forall₂ Eq ((mergedRecords crc limit picked).map Prod.snd)
        (picked.map copy) := by
      rw [mergedRecords_copies]
      exact forall₂_refl _
    rw [forall₂_map_left_iff, forall₂_map_right_iff] at same
    exact same.flip
  exact ⟨found, zipped, rfl, forall₂_zip copies zipped, rfl⟩

theorem MergeOutput.storable_placed {env : Platform} {session : Session} {fs : Fs}
    (output : MergeOutput env session fs (mergedItems env.crc limit picked)) :
    ∀ placed ∈ mergedRecords env.crc limit picked, placed.2.Storable env.crc := by
  intro placed member
  rw [← mergedItems_placed] at member
  obtain ⟨item, inside, rfl⟩ := mem_map.mp member
  exact (output.storable item inside).1

theorem positionBytes_decode {pst : LogRecordPst} (fid : pst.fid < 2 ^ 32)
    (offset : pst.offset < 2 ^ 31) :
    pst.Encodable ∧ decodeLogRecordPosition (.ofString (positionBytes pst)) = .ok pst := by
  obtain ⟨encoded, written, decoded, _⟩ := decodeLogRecordPosition_encode fid offset
  by_cases encodable : pst.Encodable
  · rw [encodeLogRecordPosition_ok encodable] at written
    cases written
    exact ⟨encodable, decoded⟩
  · rw [encodeLogRecordPosition_overrun encodable] at written
    cases written

section

variable {found : Located} {key : List Byte} {txnId : UInt64} (tagged : found.2.Tagged key txnId)

include tagged

theorem LogRecord.Tagged.copy_key : found.copy.key = encodeVarint64 nonTxnId ++ found.realKey := by
  have real : found.realKey = key := tagged.realKey found.1
  rw [copy, real, Bytes.cString_ofString tagged.nulFree]

theorem LogRecord.Tagged.copy_length_le (storable : found.2.Storable crc) :
    (encodeLogRecord crc found.copy).length ≤ (encodeLogRecord crc found.2).length := by
  refine storable.length_le ?_ ?_ (Nat.le_refl _)
  · rw [tagged.copy_key]
    exact cons_ne_nil _ _
  · have real : found.realKey = key := tagged.realKey found.1
    have positive := encodeVarint64_length_pos txnId
    have one : (encodeVarint64 nonTxnId).length = 1 := by decide
    rw [tagged.copy_key, real, tagged.split, length_append, length_append, one]
    omega

theorem LogRecord.Tagged.storable_copy (storable : found.2.Storable crc) :
    found.copy.Storable crc := by
  refine ⟨?_, (tagged.copy_length_le storable).trans storable.bounded⟩
  rw [tagged.copy_key]
  exact cons_ne_nil _ _

end

theorem Live.current_item (live : Live env session log keys) {item : MergedItem}
    (member : item ∈ session.mergeItems env log limit) (fid : item.placed.1.fid < 2 ^ 32)
    (offset : item.placed.1.offset < 2 ^ 31) :
    item.placed.2.Storable env.crc ∧ item.Current env session := by
  obtain ⟨found, zipped, named, copied, hint⟩ := mem_mergedItems member
  have picked := (of_mem_zip zipped).1
  have inside := (mem_filter.mp picked).1
  obtain ⟨key, txnId, tagged⟩ := live.tagged found inside
  obtain ⟨here, kept⟩ := live.slot_of_live picked
  have real : found.realKey = key := tagged.realKey found.1
  refine ⟨?_, ?_, ?_, ?_, ?_, ?_⟩
  · rw [copied]
    exact tagged.storable_copy (live.resting.readable.whole found inside)
  · rw [copied, named]
    exact tagged.copy_key
  · rw [copied]
    exact kept
  · intro name nonempty same
    rw [live.serves.run_get nonempty, same, named, here, copied]
    rfl
  · rw [hint, named, real, Bytes.cString_ofString tagged.nulFree]
    rfl
  · rw [hint]
    exact (positionBytes_decode fid offset).2

theorem Live.mergeOutput (live : Live env session log keys)
    (finished : Finished env.crc 0 limit last.fileId (session.liveRecords env log) reached.world)
    (named : session.db.index.lookup [] = none) (bounded : ∀ placed ∈ mergedRecords env.crc limit
      (session.liveRecords env log), placed.1.fid < 2 ^ 32 ∧ placed.1.offset < 2 ^ 31)
    (whole : reached.world.WholeWrites) :
    MergeOutput env session reached.world.fs (session.mergeItems env log limit) := by
  have current : ∀ item ∈ session.mergeItems env log limit,
        item.placed.2.Storable env.crc ∧ item.Current env session := fun item member => by
    obtain ⟨_, zipped, _⟩ := mem_mergedItems member
    have inside := (of_mem_zip zipped).2
    exact live.current_item member (bounded _ inside).1 (bounded _ inside).2
  have complete : ∀ key, key ∈ (session.mergeItems env log limit).map (·.key) ↔
      session.db.index.lookup key ≠ none := by
    intro key
    rw [mergedItems_keys, mem_map, live.holds.index]
    constructor
    · rintro ⟨found, picked, rfl⟩
      rw [(live.slot_of_live picked).1]
      exact Option.some_ne_none _
    · intro present
      cases here : keys.live key with
      | none =>
        rw [here] at present
        exact absurd rfl present
      | some slot =>
        obtain ⟨found, picked, real, _⟩ := live.exists_live here
        exact ⟨found, picked, real⟩
  have hinted : ∀ item ∈ session.mergeItems env log limit, item.hint.Storable env.crc := by
    intro item member
    refine ⟨?_, whole _ (finished.written item.hint ?_)⟩
    · rw [(current item member).2.named]
      intro empty
      refine (complete item.key).mp (mem_map_of_mem member) ?_
      rw [empty, named]
    · rw [← mergedItems_hints]
      exact mem_map_of_mem member
  refine ⟨?_, complete, ⟨_, finished.stored, ?_⟩, ?_,
    fun item member => ⟨(current item member).1, hinted item member⟩,
    fun item member => (current item member).2⟩
  · rw [mergedItems_keys]
    exact live.nodup_live
  · rw [mergedItems_placed]
    exact records_mergedLog env.crc limit _
  · rw [finished.hint, mergedItems_hints, logBytes_eq_fileBytes]
    intro entry member
    rw [← mergedItems_hints] at member
    obtain ⟨item, inside, rfl⟩ := mem_map.mp member
    exact hinted item inside

/-- With a live key and no empty data file `Merge` returns `Ok`, and the mergence directory
holds exactly the live data. Keys do not begin with a NUL, the new positions have 32 bits of
file id and 31 bits of offset, and every write is whole. -/
theorem merge_output_live_data {world : World} {acts : List Act} (empty : EmptyDir world)
    (run : Run (Act.CleanStep env) (.closed world) acts (.running session))
    (present : ∃ key, session.db.index.lookup key ≠ none)
    (full : NoEmptyDataFile session.world.fs 0) (named : session.db.index.lookup [] = none)
    (bounded : ∀ placed ∈ mergedRecords env.crc session.db.options.dataFileSize
      (session.db.index.liveRecords (session.world.fs.readLog env.crc 0)),
        placed.1.fid < 2 ^ 32 ∧ placed.1.offset < 2 ^ 31)
    (whole : ((mergeDb env).run session).2.world.WholeWrites) :
    ((mergeDb env).run session).1 = .ok .ok ∧
      ∃ items, MergeOutput env session ((mergeDb env).run session).2.world.fs items := by
  obtain ⟨log, keys, live⟩ := sound_of_run empty run
  rw [live.resting.noEmptyDataFile_iff] at full
  rw [live.readLog full] at bounded
  rw [← live.live_ne_nil_iff] at present
  rcases live.run_mergeDb with ⟨unstarted, _⟩ | ⟨last, outcome, reached, active, ran, merges⟩
  · refine absurd ?_ present
    rw [Log.records, Log.files, live.resting.started unstarted, unstarted]
    rfl
  · have encodable : PositionsEncodable env.crc session.db.options.dataFileSize
        (session.db.index.liveRecords (log.records env.crc)) := fun placed member =>
      (positionBytes_decode (bounded placed member).1 (bounded placed member).2).1
    have ended := merges.ended
    rw [(merges.ok_iff live.noNull).mpr ⟨full, present, encodable⟩] at ran ended
    rw [ran] at whole ⊢
    cases ended with
    | finished _ _ _ finished =>
      rw [live.top] at finished
      exact ⟨rfl, _, live.mergeOutput finished named bounded whole⟩

theorem merge_output_one_key :
    ((mergeDb .reference).run oneKeySession).1 = .ok .ok ∧
      ∃ items, MergeOutput .reference oneKeySession
        ((mergeDb .reference).run oneKeySession).2.world.fs items := by
  have present : oneKeySession.db.index.lookup [97] ≠ none := by decide +kernel
  exact merge_output_live_data ⟨rfl, rfl⟩ cleanRun_oneKeySession ⟨[97], present⟩
    noEmptyDataFile_oneKeySession (by decide +kernel) (by decide +kernel) (by decide +kernel)

/-- A batch is committed twice: both commits return `Ok` and its key can be read, but the merge
leaves it out, since the record it leads to carries another key. -/
theorem merge_drops_recommitted_key :
    let options : Options := ⟨⟨"db", 0⟩, 64, false, .skipListIndex⟩
    let opened : Session := ⟨DB.new options, .on ⟨[∅]⟩⟩
    let filled := ((WriteBatch.put (.ofString [97]) (.ofString [49])).run ⟨.new ⟨8⟩, opened⟩).2
    let first := (WriteBatch.commit .reference).run filled
    let second := (WriteBatch.commit .reference).run first.2
    let last := (put .reference (.ofString [98]) (.ofString [50])).run second.2.session
    let merged := (mergeDb .reference).run last.2
    (openDb .reference options false).run (.on ⟨[∅]⟩) = (.ok opened.db, opened.world) ∧
      first.1 = .ok .ok ∧ second.1 = .ok .ok ∧ last.1 = .ok .ok ∧
      NoEmptyDataFile last.2.world.fs 0 ∧
      ((get .reference (.ofString [97]) true).run last.2).1 = .ok [49] ∧ merged.1 = .ok .ok ∧
      (merged.2.world.fs.readLog .castagnoli (getMergenceDirectory 0)).map Prod.snd =
        [putRecord (.ofString [98]) (.ofString [50])] := by
  refine ⟨rfl, ?_, ?_, ?_, ?_, ?_, ?_, ?_⟩ <;> decide +kernel

end Output

section Stopped

variable {env : Platform} {session : Session} {world : World} {options : Options} {log : Log}
  {keys : KeyState}

theorem Live.interrupted (live : Live env session log keys)
    (interrupted : Interrupted env session world) :
    world.script = [] ∧ ∃ log', Resting env.crc world.fs log' keys := by
  induction interrupted with
  | closed => exact ⟨live.reliable, log, live.resting⟩
  | merge passed =>
    obtain ⟨log', _, resting⟩ := live.merge_disks _ passed
    exact ⟨live.served_merge.reliable, log', resting⟩
  | @«open» world options mergeAfterOpen disk _ unmarked top passed ih =>
    obtain ⟨reliable, log', resting⟩ := ih
    have opens := resting.opens reliable unmarked top mergeAfterOpen
    obtain ⟨last, _, rests⟩ := opens.disks disk passed
    exact ⟨opens.reliable, last, rests⟩

theorem Resting.never_opens (resting : Resting env.crc world.fs log keys)
    (reliable : world.script = []) (unmarked : ¬ world.fs.Marked)
    (empty : ¬ NoEmptyDataFile world.fs 0) (top : options.dirPath.level = 0)
    (valid : checkOptions options = .ok ()) (count : Nat) :
    ∃ status, ((openDb env options false).run (world.afterOpens env options count)).1 =
      .error (.failed status) := by
  rw [resting.noEmptyDataFile_iff] at empty
  have some : ∃ file ∈ log.files, file.records = [] := by simpa using empty
  induction count generalizing world with
  | zero =>
    obtain ⟨status, cleared, _, failed⟩ :=
      resting.run_openDb_emptyFile reliable unmarked some top valid false
    exact ⟨status, congrArg Prod.fst failed⟩
  | succ count ih =>
    obtain ⟨status, cleared, clears, failed⟩ :=
      resting.run_openDb_emptyFile reliable unmarked some top valid false
    rw [World.afterOpens, failed]
    refine ih (clears.resting resting) clears.reliable ?_
    have missing : cleared.fs.content? ⟨getMergenceDirectory 0, .merged⟩ = none :=
      Fs.content?_of_level (Nat.le_of_eq clears.levels) _
    rw [Fs.Marked, missing]
    exact Bool.false_ne_true

end Stopped

/-- A stopped merge, and any stopped `Open` after it, can be recovered from exactly when there
is no empty data file, as long as no merge is marked as finished. -/
theorem interrupted_recovers_iff {env : Platform} {world interrupted : World} {acts : List Act}
    {session : Session} {options : Options} (empty : EmptyDir world)
    (run : Run (Act.CleanStep env) (.closed world) acts (.running session))
    (stopped : Interrupted env session interrupted) (unmarked : ¬ interrupted.fs.Marked)
    (top : options.dirPath.level = 0) (valid : checkOptions options = .ok ()) :
    (∃ count db opened, (openDb env options false).run (interrupted.afterOpens env options count) =
        (.ok db, opened) ∧
      ∀ key, ((get env key true).run ⟨db, opened⟩).1 = ((get env key true).run session).1) ↔
      NoEmptyDataFile interrupted.fs 0 := by
  obtain ⟨log, keys, live⟩ := sound_of_run empty run
  obtain ⟨reliable, log', resting⟩ := live.interrupted stopped
  constructor
  · rintro ⟨count, db, opened, ran, _⟩
    by_contra some
    obtain ⟨status, failed⟩ := resting.never_opens reliable unmarked some top valid count
    rw [ran] at failed
    cases failed
  · intro full
    obtain ⟨db, opened, recovered⟩ := (resting.reopens reliable unmarked live.serves
      (fun _ _ => rfl) top valid).mpr full
    exact ⟨0, db, opened, recovered⟩

theorem interrupted_recovers_before_merge :
    let options : Options := ⟨⟨"db", 0⟩, 64, false, .skipListIndex⟩
    let merged := ((mergeDb .reference).run oneKeySession).2.world
    ∃ disk ∈ oneKeySession.world.passed merged, ∃ count db opened,
      (openDb .reference options false).run
        ((merged.stoppedAt disk).afterOpens .reference options count) = (.ok db, opened) ∧
      ∀ key, ((get .reference key true).run ⟨db, opened⟩).1 =
        ((get .reference key true).run oneKeySession).1 := by
  intro options merged
  have stop : (oneKeySession.world.passed merged)[0]?.map (fun disk =>
      (decide disk.Marked, decide (NoEmptyDataFile disk 0))) = some (false, true) := by
    decide +kernel
  obtain ⟨disk, here, checked⟩ := Option.map_eq_some_iff.mp stop
  obtain ⟨unmarked, full⟩ := Prod.mk.inj checked
  have passed := List.mem_of_getElem? here
  exact ⟨disk, passed, (interrupted_recovers_iff ⟨rfl, rfl⟩ cleanRun_oneKeySession (.merge passed)
    (of_decide_eq_false unmarked) rfl (by decide)).mpr (of_decide_eq_true full)⟩

/-- A merge that is stopped as soon as it has closed the active file: the key is there, but no
`Open` ever succeeds again. -/
theorem stopped_merge_never_opens :
    let options : Options := ⟨⟨"db", 0⟩, 64, false, .skipListIndex⟩
    let merged := ((mergeDb .reference).run oneKeySession).2.world
    ((get .reference (.ofString [97]) true).run oneKeySession).1 = .ok [49] ∧
      ∃ disk ∈ oneKeySession.world.passed merged, ∀ count db opened,
        (openDb .reference options false).run
          ((merged.stoppedAt disk).afterOpens .reference options count) ≠ (.ok db, opened) := by
  intro options merged
  refine ⟨by decide +kernel, ?_⟩
  have stop : (oneKeySession.world.passed merged)[1]?.map (fun disk =>
      (decide disk.Marked, decide (NoEmptyDataFile disk 0))) = some (false, false) := by
    decide +kernel
  obtain ⟨disk, here, checked⟩ := Option.map_eq_some_iff.mp stop
  obtain ⟨unmarked, empty⟩ := Prod.mk.inj checked
  have passed := List.mem_of_getElem? here
  obtain ⟨log, keys, live⟩ := sound_of_run ⟨rfl, rfl⟩ cleanRun_oneKeySession
  obtain ⟨reliable, log', resting⟩ := live.interrupted (.merge passed)
  refine ⟨disk, passed, fun count db opened ran => ?_⟩
  obtain ⟨status, failed⟩ := resting.never_opens reliable (of_decide_eq_false unmarked)
    (of_decide_eq_false empty) rfl (show checkOptions options = .ok () by decide) count
  rw [ran] at failed
  cases failed

end Bitdb
