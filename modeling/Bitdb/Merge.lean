import Bitdb.DbOpenProperties

/-! What a merge makes of a log: the records the index points at, copied to the log of a temporary
database, and a hint entry for each copy. The copying loop of `Merge`. The temporary database is
attached to the log of the records copied so far, and the hint file lists them. -/

set_option autoImplicit false

namespace Bitdb

def Located.realKey (found : Located) : List Byte :=
  match decodeLogRecordWithTxnID (.ofString found.2.key) with
  | .ok (key, _) => key
  | .error _ => []

def Indexer.PointsAt (index : Indexer) (found : Located) : Prop :=
  index.get (.ofString found.realKey) = some found.1

instance (index : Indexer) (found : Located) : Decidable (index.PointsAt found) :=
  inferInstanceAs (Decidable (_ = _))

def Indexer.liveRecords (index : Indexer) (records : List Located) : List Located :=
  records.filter fun found => index.PointsAt found

def Located.copy (found : Located) : LogRecord :=
  { found.2 with
    key := encodeVarint64 nonTxnId ++ (Bytes.ofString found.realKey).cString }

/-- The encoding of a position, whether or not it fits its buffer. -/
def positionBytes (pst : LogRecordPst) : List Byte :=
  encodeVarint32 (UInt32.ofNat pst.fid) ++ encodeVarint64 (UInt64.ofNat pst.offset)

def LogRecordPst.Encodable (pst : LogRecordPst) : Prop :=
  (positionBytes pst).length ≤ maxVarint32Len + maxVarint64Len

instance (pst : LogRecordPst) : Decidable pst.Encodable := inferInstanceAs (Decidable (_ ≤ _))

def hintRecord (key : List Byte) (pst : LogRecordPst) : LogRecord :=
  ⟨key, positionBytes pst, .unset⟩

def mergedLog (crc : Crc32c) (limit : Nat) (picked : List Located) : Log :=
  Log.empty.appendAll crc limit (picked.map Located.copy)

def mergedRecords (crc : Crc32c) (limit : Nat) (picked : List Located) : List Located :=
  Log.empty.locate crc limit (picked.map Located.copy)

def mergedHints (crc : Crc32c) (limit : Nat) (picked : List Located) : List LogRecord :=
  List.zipWith (fun found placed =>
    hintRecord (Bytes.ofString found.realKey).cString placed.1) picked
      (mergedRecords crc limit picked)

/-- A key in the mergence directory: its record and its entry in the hint file. -/
structure MergedItem where
  key : List Byte
  placed : Located
  hint : LogRecord

def mergedItems (crc : Crc32c) (limit : Nat) (picked : List Located) : List MergedItem :=
  (picked.zip (mergedRecords crc limit picked)).map fun pair =>
    ⟨pair.1.realKey, pair.2, hintRecord (Bytes.ofString pair.1.realKey).cString pair.2.1⟩

def PositionsEncodable (crc : Crc32c) (limit : Nat) (picked : List Located) : Prop :=
  ∀ placed ∈ mergedRecords crc limit picked, placed.1.Encodable

def mergedRecord (nonMergedFileId : Nat) : LogRecord :=
  ⟨mergedLogRecordKey, toDecimal nonMergedFileId, .unset⟩

/-- The record has no transaction and stores what `Get` returns; the hint leads to it. -/
structure MergedItem.Current (env : Platform) (session : Session) (item : MergedItem) : Prop where
  tagged : item.placed.2.key = encodeVarint64 nonTxnId ++ item.key
  kept : item.placed.2.type ≠ .deleted
  value : ∀ key : Bytes, key.empty = false → key.cString = item.key →
    ((get env key true).run session).1 = .ok item.placed.2.value
  named : item.hint.key = item.key
  position : decodeLogRecordPosition (.ofString item.hint.value) = .ok item.placed.1

/-- The mergence directory holds exactly these items: one for each key of the database. -/
structure MergeOutput (env : Platform) (session : Session) (fs : Fs) (items : List MergedItem) :
    Prop where
  distinct : (items.map (·.key)).Nodup
  complete : ∀ key, key ∈ items.map (·.key) ↔ session.db.index.lookup key ≠ none
  data : ∃ files, FilesStored env.crc fs (getMergenceDirectory 0) files ∧
    files.flatMap (·.located env.crc) = items.map (·.placed)
  hints : fs.content? ⟨getMergenceDirectory 0, .hintIndex⟩ =
    some (fileBytes env.crc (items.map (·.hint)))
  storable : ∀ item ∈ items, item.placed.2.Storable env.crc ∧ item.hint.Storable env.crc
  current : ∀ item ∈ items, item.Current env session

open Base List Program Located

section Merged

variable (crc : Crc32c) (limit : Nat) (picked more : List Located)

theorem mergedLog_append : mergedLog crc limit (picked ++ more) =
    (mergedLog crc limit picked).appendAll crc limit (more.map copy) := by
  rw [mergedLog, map_append, Log.appendAll_append]
  rfl

theorem mergedRecords_append : mergedRecords crc limit (picked ++ more) =
    mergedRecords crc limit picked ++
      (mergedLog crc limit picked).locate crc limit (more.map copy) := by
  rw [mergedRecords, map_append, Log.locate_append]
  rfl

theorem mergedRecords_copies : (mergedRecords crc limit picked).map Prod.snd = picked.map copy :=
  Log.locate_records crc limit .empty (picked.map copy)

theorem length_mergedRecords : (mergedRecords crc limit picked).length = picked.length := by
  have lengths := congrArg List.length (mergedRecords_copies crc limit picked)
  simpa using lengths

theorem records_mergedLog :
    (mergedLog crc limit picked).records crc = mergedRecords crc limit picked :=
  Log.records_appendAll crc limit .empty (picked.map copy)

theorem mergedHints_append (found : Located) : mergedHints crc limit (picked ++ [found]) =
    mergedHints crc limit picked ++ [hintRecord (Bytes.ofString found.realKey).cString
      ((mergedLog crc limit picked).place crc limit found.copy)] := by
  rw [mergedHints, mergedRecords_append,
    zipWith_append (length_mergedRecords crc limit picked).symm]
  rfl

theorem within_mergedLog :
    Within (mergedLog crc limit picked).files (mergedLog crc limit (picked ++ more)).files := by
  rw [mergedLog_append]
  exact Log.within_appendAll _ _ _ _

variable {crc limit picked more}

theorem PositionsEncodable.front (all : PositionsEncodable crc limit (picked ++ more)) :
    PositionsEncodable crc limit picked := by
  intro placed member
  rw [PositionsEncodable, mergedRecords_append] at all
  exact all placed (mem_append_left _ member)

theorem PositionsEncodable.append {found : Located} (all : PositionsEncodable crc limit picked)
    (newest : ((mergedLog crc limit picked).place crc limit found.copy).Encodable) :
    PositionsEncodable crc limit (picked ++ [found]) := by
  intro placed member
  rw [mergedRecords_append] at member
  rcases mem_append.mp member with before | last
  · exact all placed before
  · obtain rfl := mem_singleton.mp last
    exact newest

theorem PositionsEncodable.newest {found : Located}
    (all : PositionsEncodable crc limit (picked ++ [found])) :
    ((mergedLog crc limit picked).place crc limit found.copy).Encodable := by
  rw [PositionsEncodable, mergedRecords_append] at all
  exact all (_, found.copy) (mem_append_right _ (mem_singleton.mpr rfl))

end Merged

theorem encodeLogRecordPosition_ok {pst : LogRecordPst} (encodable : pst.Encodable) :
    encodeLogRecordPosition pst = .ok (positionBytes pst) := by
  have fits : ¬ maxVarint32Len + maxVarint64Len < (positionBytes pst).length :=
    Nat.not_lt.mpr encodable
  rw [positionBytes] at fits
  simp only [encodeLogRecordPosition, fits, ↓reduceIte]
  rfl

theorem encodeLogRecordPosition_overrun {pst : LogRecordPst} (past : ¬ pst.Encodable) :
    encodeLogRecordPosition pst = .error (.faulted .outOfBounds) := by
  have longer : maxVarint32Len + maxVarint64Len < (positionBytes pst).length := Nat.not_le.mp past
  rw [positionBytes] at longer
  simp only [encodeLogRecordPosition, longer, ↓reduceIte]

/-- A disk while a merge copies records to the directory below `level`. -/
structure Building (crc : Crc32c) (base : Fs) (level limit : Nat) (picked : List Located)
    (disk : Fs) : Prop where
  stored : ∃ files, FilesStored crc disk (getMergenceDirectory level) files ∧
    Within files (mergedLog crc limit picked).files
  levels : disk.dirs.length = base.dirs.length
  outside : ∀ handle : Handle, handle.level ≠ getMergenceDirectory level →
    disk.content? handle = base.content? handle
  unfinished : disk.content? ⟨getMergenceDirectory level, .merged⟩ = none

theorem Building.more {crc : Crc32c} {base disk : Fs} {level limit : Nat} {picked : List Located}
    (building : Building crc base level limit picked disk) (more : List Located) :
    Building crc base level limit (picked ++ more) disk := by
  obtain ⟨files, stored, within⟩ := building.stored
  exact ⟨⟨files, stored, within.trans (within_mergedLog crc limit picked more)⟩,
    building.levels, building.outside, building.unfinished⟩

/-- A world in which a merge has copied records since `base`. -/
structure Built (env : Platform) (base : World) (level limit : Nat) (picked : List Located)
    (world : World) : Prop where
  reliable : world.script = []
  disk : Building env.crc base.fs level limit picked world.fs
  passes : Passes (Building env.crc base.fs level limit picked) base world

theorem Built.more {env : Platform} {base world : World} {level limit : Nat}
    {picked : List Located} (built : Built env base level limit picked world)
    (more : List Located) : Built env base level limit (picked ++ more) world :=
  ⟨built.reliable, built.disk.more more, built.passes.mono fun _ building => building.more more⟩

structure Copying (env : Platform) (base : World) (level limit : Nat) (picked : List Located)
    (tempDb : DB) (hintFile : DataFile) (world : World) : Prop
    extends Built env base level limit picked world where
  temp : Attached env ⟨tempDb, world⟩ (mergedLog env.crc limit picked)
  tempLevel : tempDb.options.dirPath.level = getMergenceDirectory level
  tempLimit : tempDb.options.dataFileSize = limit
  handle : hintFile.handle = ⟨getMergenceDirectory level, .hintIndex⟩
  hint : world.fs.content? ⟨getMergenceDirectory level, .hintIndex⟩ =
    some (logBytes env.crc (mergedHints env.crc limit picked))
  written : ∀ entry ∈ mergedHints env.crc limit picked,
    (⟨getMergenceDirectory level, .hintIndex⟩, encodeLogRecord env.crc entry) ∈ world.trace
  encodable : PositionsEncodable env.crc limit picked

section Copy

variable {env : Platform} {base world : World} {level limit : Nat} {picked : List Located}
  {tempDb : DB} {hintFile : DataFile}

theorem Copying.run_append (copying : Copying env base level limit picked tempDb hintFile world)
    (found : Located) :
    ∃ tempDb' middle, (onDb tempDb (appendLogRecord env found.copy)).run world =
        (.ok ((mergedLog env.crc limit picked).place env.crc limit found.copy, tempDb'), middle) ∧
      Appended env ⟨tempDb, world⟩ (mergedLog env.crc limit picked) [found.copy]
        ⟨tempDb', middle⟩ ∧
      Built env base level limit (picked ++ [found]) middle := by
  obtain ⟨reached, ran, appended⟩ := copying.temp.run_appendLogRecord found.copy
  have limits := copying.tempLimit
  have levels := copying.tempLevel
  have merged := mergedLog_append env.crc limit picked [found]
  refine ⟨reached.db, reached.world, ?_, appended, appended.attached.reliable, ?_, ?_⟩
  · rw [run_onDb ran]
    simp only [Session.limit, limits]
  · have stored := appended.attached.stored
    have others := appended.frame.others
    simp only [appended.frame.options, levels, limits] at stored others
    refine ⟨⟨_, stored, by rw [merged]; exact .refl _⟩,
      appended.frame.levels.trans copying.disk.levels, ?_, ?_⟩
    · intro handle outside
      exact (others handle (.inl outside)).trans (copying.disk.outside handle outside)
    · exact (others _ (.inr fun _ same => by cases same)).trans copying.disk.unfinished
  · refine (copying.passes.mono fun disk building => building.more [found]).trans
      (appended.passes.mono fun disk between => ?_)
    obtain ⟨files, stored, partway⟩ := between.stored
    have above := partway.upper
    have others := between.others
    simp only [levels, limits] at stored above others
    refine ⟨⟨files, stored, by rw [merged]; exact above⟩,
      between.levels.trans copying.disk.levels, ?_, ?_⟩
    · intro handle outside
      exact (others handle (.inl outside)).trans (copying.disk.outside handle outside)
    · exact (others _ (.inr fun _ same => by cases same)).trans copying.disk.unfinished

theorem run_writeHintRecord {old : List Byte} (key : Bytes) {pst : LogRecordPst}
    (reliable : world.script = []) (found : world.fs.content? hintFile.handle = some old)
    (encodable : pst.Encodable) :
    ∃ hintFile', (writeHintRecord env.crc hintFile key pst).run world =
        (.ok hintFile', world.written hintFile.handle
          (old ++ writtenBytes env.crc (hintRecord key.cString pst))
          (encodeLogRecord env.crc (hintRecord key.cString pst))) ∧
      hintFile'.handle = hintFile.handle := by
  have written := DataFile.run_write (encodeLogRecord env.crc (hintRecord key.cString pst))
    reliable found
  rw [writeHintRecord, encodeLogRecordPosition_ok encodable, run_ofExcept_ok_bind]
  exact ⟨_, written, rfl⟩

theorem Copying.run_copy (copying : Copying env base level limit picked tempDb hintFile world)
    (found : Located) (encodable :
      ((mergedLog env.crc limit picked).place env.crc limit found.copy).Encodable) :
    ∃ tempDb' middle hintFile' reached, (onDb tempDb (appendLogRecord env found.copy)).run world =
        (.ok ((mergedLog env.crc limit picked).place env.crc limit found.copy, tempDb'), middle) ∧
      (writeHintRecord env.crc hintFile (.ofString found.realKey)
        ((mergedLog env.crc limit picked).place env.crc limit found.copy)).run middle =
          (.ok hintFile', reached) ∧
      Copying env base level limit (picked ++ [found]) tempDb' hintFile' reached := by
  obtain ⟨tempDb', middle, ran, appended, built⟩ := copying.run_append found
  have limits := copying.tempLimit
  have levels := copying.tempLevel
  have options : tempDb'.options = tempDb.options := appended.frame.options
  have hinted : middle.fs.content? hintFile.handle =
      some (logBytes env.crc (mergedHints env.crc limit picked)) := by
    rw [copying.handle]
    exact (appended.frame.others _ (.inr fun _ same => by cases same)).trans copying.hint
  obtain ⟨hintFile', wrote, handle⟩ :=
    run_writeHintRecord (.ofString found.realKey) built.reliable hinted encodable
  rw [copying.handle] at wrote handle hinted
  have present := Fs.dir?_isSome_of_content? hinted
  have other (name : FileName) (different : name ≠ .hintIndex) (depth : Nat) :
      (⟨getMergenceDirectory level, .hintIndex⟩ : Handle) ≠ ⟨depth, name⟩ := by
    intro same
    injection same with _ names
    exact different names.symm
  have attached : Attached env ⟨tempDb', middle⟩ (mergedLog env.crc limit (picked ++ [found])) := by
    rw [mergedLog_append]
    have attached := appended.attached
    simp only [limits] at attached
    exact attached
  refine ⟨tempDb', middle, hintFile', _, ran, wrote, ⟨built.reliable, ?_, ?_⟩, ?_, ?_, ?_, handle,
    ?_, ?_, copying.encodable.append encodable⟩
  · obtain ⟨files, stored, within⟩ := built.disk.stored
    refine ⟨⟨files, stored.of_same ?_ ?_, within⟩, ?_, ?_, ?_⟩
    · rw [World.written_fs, Fs.dir?_put_isSome]
      exact present
    · exact fun fileId => Fs.content?_put_ne (other _ (by simp) _)
    · rw [World.written_fs, Fs.dirs_length_put]
      exact built.disk.levels
    · intro handle outside
      refine (Fs.content?_put_ne ?_).trans (built.disk.outside handle outside)
      rintro rfl
      exact outside rfl
    · exact (Fs.content?_put_ne (other _ (by simp) _)).trans built.disk.unfinished
  · exact built.passes.trans (.once rfl built.disk)
  · refine attached.of_same built.reliable ?_ fun fileId => Fs.content?_put_ne (other _ (by simp) _)
    rw [World.written_fs, Fs.dir?_put_isSome]
    exact attached.stored.present
  · rw [options]
    exact levels
  · rw [options]
    exact limits
  · rw [World.written_fs, Fs.content?_put_same present, mergedHints_append, logBytes_append]
    simp
  · intro entry member
    rw [mergedHints_append] at member
    rcases mem_append.mp member with before | newest
    · refine mem_append_left _ ?_
      have trace := appended.trace
      simp only at trace
      rw [trace]
      exact mem_append_left _ (copying.written entry before)
    · rw [mem_singleton.mp newest]
      exact mem_append_right _ (mem_singleton.mpr rfl)

variable {record : LogRecord} {file : DataFile} {session : Session}

theorem LogRecord.Tagged.realKey {key : List Byte} {txnId : UInt64}
    (tagged : record.Tagged key txnId) (pst : LogRecordPst) :
    Located.realKey (pst, record) = key := by
  simp only [Located.realKey, tagged.decode]

theorem run_mergeFile_live (fuel : Nat) {offset size : Nat} {key : List Byte} {txnId : UInt64}
    (copying : Copying env base level limit picked tempDb hintFile session.world)
    (read : (io (file.readLogRecordAt env.crc offset)).run session = (.ok (record, size), session))
    (positive : ¬ size = 0) (tagged : record.Tagged key txnId)
    (live : session.db.index.PointsAt (⟨file.fileId, offset⟩, record)) :
    (∃ tempDb' hintFile' reached,
      Copying env base level limit (picked ++ [(⟨file.fileId, offset⟩, record)]) tempDb' hintFile'
        reached ∧
      (mergeFile env file (fuel + 1) offset tempDb hintFile).run session =
        (mergeFile env file fuel (offset + size) tempDb' hintFile').run
          { session with world := reached }) ∨
    ∃ reached, (mergeFile env file (fuel + 1) offset tempDb hintFile).run session =
        (.error (.faulted .outOfBounds), { session with world := reached }) ∧
      ¬ PositionsEncodable env.crc limit (picked ++ [(⟨file.fileId, offset⟩, record)]) ∧
      Built env base level limit (picked ++ [(⟨file.fileId, offset⟩, record)]) reached := by
  have realKey := tagged.realKey ⟨file.fileId, offset⟩
  have copied : copy (⟨file.fileId, offset⟩, record) =
      { record with key := encodeVarint64 nonTxnId ++ (Bytes.ofString key).cString } := by
    rw [copy, realKey]
  have points : session.db.index.get (.ofString key) = some ⟨file.fileId, offset⟩ := by
    rw [Indexer.PointsAt, realKey] at live
    exact live
  have encoded := encodeLogRecordWithTxnID_small (.ofString key) zero_small
  by_cases encodable : ((mergedLog env.crc limit picked).place env.crc limit
      (copy (⟨file.fileId, offset⟩, record))).Encodable
  · obtain ⟨tempDb', middle, hintFile', reached, ran, wrote, copying'⟩ :=
      copying.run_copy (⟨file.fileId, offset⟩, record) encodable
    refine .inl ⟨tempDb', hintFile', reached, copying', ?_⟩
    rw [copied] at ran wrote
    rw [realKey] at wrote
    rw [mergeFile, run_bind_ok read]
    simp only [positive, ↓reduceIte, tagged.decode, run_ofExcept_ok_bind, run_readDb_bind,
      points, encoded]
    rw [run_io_bind ran]
    exact run_io_bind wrote
  · obtain ⟨tempDb', middle, ran, appended, built⟩ :=
      copying.run_append (⟨file.fileId, offset⟩, record)
    have stopped : (writeHintRecord env.crc hintFile (.ofString key)
        ((mergedLog env.crc limit picked).place env.crc limit
          (copy (⟨file.fileId, offset⟩, record)))).run middle =
        (.error (.faulted .outOfBounds), middle) := by
      rw [writeHintRecord, encodeLogRecordPosition_overrun encodable]
      rfl
    refine .inr ⟨middle, ?_, fun all => encodable all.newest, built⟩
    rw [copied] at ran stopped
    rw [mergeFile, run_bind_ok read]
    simp only [positive, ↓reduceIte, tagged.decode, run_ofExcept_ok_bind, run_readDb_bind,
      points, encoded]
    rw [run_io_bind ran]
    have ended := @run_io DataFile { session with world := middle } _ _ _ stopped
    exact run_bind_error ended

theorem run_mergeFile_dead {fuel offset size : Nat} {key : List Byte} {txnId : UInt64}
    (read : (io (file.readLogRecordAt env.crc offset)).run session = (.ok (record, size), session))
    (positive : ¬ size = 0) (tagged : record.Tagged key txnId)
    (dead : ¬ session.db.index.PointsAt (⟨file.fileId, offset⟩, record)) :
    (mergeFile env file (fuel + 1) offset tempDb hintFile).run session =
      (mergeFile env file fuel (offset + size) tempDb hintFile).run session := by
  have points : ¬ session.db.index.get (.ofString key) = some ⟨file.fileId, offset⟩ := by
    rw [Indexer.PointsAt, tagged.realKey] at dead
    exact dead
  rw [mergeFile, run_bind_ok read]
  simp only [positive, ↓reduceIte, tagged.decode, run_ofExcept_ok_bind, run_readDb_bind, points]

/-- What a part of the copying loop may end with. The object being merged keeps its
fields either way. -/
def Copies (env : Platform) (base : World) (level limit : Nat) (session : Session)
    (picked : List Located) (blocked : Stop → Prop) (result : Except Stop (DB × DataFile) × Session) :
    Prop :=
  match result with
  | (.ok (tempDb, hintFile), reached) =>
    reached.db = session.db ∧ Copying env base level limit picked tempDb hintFile reached.world
  | (.error stop, reached) =>
    reached.db = session.db ∧ blocked stop ∧ Built env base level limit picked reached.world

def Overrun (crc : Crc32c) (limit : Nat) (picked : List Located) (stop : Stop) : Prop :=
  stop = .faulted .outOfBounds ∧ ¬ PositionsEncodable crc limit picked

theorem Copying.content_eq {handle : Handle} {world : World}
    (copying : Copying env base level limit picked tempDb hintFile world)
    (outside : handle.level ≠ getMergenceDirectory level) :
    world.fs.content handle = base.fs.content handle := by
  rw [Fs.content, copying.disk.outside _ outside, Fs.content]

theorem run_mergeFile (front rest : List LogRecord) (fuel : Nat) (session : Session)
    (picked : List Located) (tempDb : DB) (hintFile : DataFile)
    (copying : Copying env base level limit picked tempDb hintFile session.world)
    (outside : file.handle.level ≠ getMergenceDirectory level)
    (content : base.fs.content file.handle = fileBytes env.crc (front ++ rest))
    (nonempty : fileBytes env.crc (front ++ rest) ≠ [])
    (storable : ∀ record ∈ rest, record.Storable env.crc)
    (tagged : ∀ record ∈ rest, ∃ key txnId, record.Tagged key txnId) (enough : rest.length < fuel) :
    Copies env base level limit session
      (picked ++ session.db.index.liveRecords
        (located env.crc file.fileId (fileBytes env.crc front).length rest))
      (Overrun env.crc limit (picked ++ session.db.index.liveRecords
        (located env.crc file.fileId (fileBytes env.crc front).length rest)))
      ((mergeFile env file fuel (fileBytes env.crc front).length tempDb hintFile).run session) := by
  induction rest generalizing front fuel session picked tempDb hintFile with
  | nil =>
    obtain ⟨fuel, rfl⟩ : ∃ more, fuel = more + 1 := ⟨fuel - 1, by omega⟩
    rw [append_nil] at content nonempty
    have read := run_readEnd ((copying.content_eq outside).trans content) nonempty
    have ended : (mergeFile env file (fuel + 1) (fileBytes env.crc front).length tempDb
        hintFile).run session = (.ok (tempDb, hintFile), session) := by
      rw [mergeFile, run_bind_ok read]
      rfl
    rw [ended, located, Indexer.liveRecords, filter_nil, append_nil]
    exact ⟨rfl, copying⟩
  | cons record rest ih =>
    obtain ⟨fuel, rfl⟩ : ∃ more, fuel = more + 1 := ⟨fuel - 1, by omega⟩
    have here := storable record (by simp)
    obtain ⟨key, txnId, tag⟩ := tagged record (by simp)
    have positive : 6 < (encodeLogRecord env.crc record).length :=
      encodeLogRecord_length_pos here.keyed
    have nonzero : ¬ (encodeLogRecord env.crc record).length = 0 := by omega
    have read := run_readNext here ((copying.content_eq outside).trans content)
    have regroup : front ++ [record] ++ rest = front ++ record :: rest := by simp
    have advanced := length_fileBytes_concat env.crc front record
    have later (session' : Session) (picked' : List Located) (tempDb' : DB)
        (hintFile' : DataFile)
        (copying' : Copying env base level limit picked' tempDb' hintFile' session'.world) :=
      ih (front ++ [record]) fuel session' picked' tempDb' hintFile' copying'
        (by rw [regroup]; exact content) (by rw [regroup]; exact nonempty)
        (fun other member => storable other (by simp [member]))
        (fun other member => tagged other (by simp [member])) (by simpa using enough)
    simp only [advanced] at later
    rw [located, here.writtenBytes_eq]
    by_cases live : session.db.index.PointsAt
        (⟨file.fileId, (fileBytes env.crc front).length⟩, record)
    · rw [Indexer.liveRecords, filter_cons_of_pos (by simpa using live)]
      rcases run_mergeFile_live fuel copying read nonzero tag live with
        ⟨tempDb', hintFile', reached, copying', ran⟩ | ⟨reached, ran, overrun, built⟩
      · have rest := later { session with world := reached } _ tempDb' hintFile' copying'
        rw [append_assoc] at rest
        rw [ran]
        exact rest
      · have all := built.more (session.db.index.liveRecords
          (located env.crc file.fileId ((fileBytes env.crc front).length +
            (encodeLogRecord env.crc record).length) rest))
        rw [append_assoc] at all
        rw [ran]
        refine ⟨rfl, ⟨rfl, fun encodable => overrun ?_⟩, all⟩
        rw [← singleton_append, ← append_assoc] at encodable
        exact encodable.front
    · rw [Indexer.liveRecords, filter_cons_of_neg (by simpa using live),
        run_mergeFile_dead read nonzero tag live]
      exact later session picked tempDb hintFile copying

theorem run_mergeFile_empty (fuel : Nat) (empty : session.world.fs.content file.handle = []) :
    (mergeFile env file (fuel + 1) 0 tempDb hintFile).run session =
      (.error (.failed emptyFileStatus), session) := by
  rw [mergeFile]
  exact run_bind_error (run_readEmpty empty)

/-- Why the copying loop stops: a position that is too long, or an empty data file. -/
def Blocked (crc : Crc32c) (limit : Nat) (picked : List Located) (logs : List FileLog)
    (stop : Stop) : Prop :=
  Overrun crc limit picked stop ∨ (stop = .failed emptyFileStatus ∧ ∃ log ∈ logs, log.records = [])

theorem Overrun.more {crc : Crc32c} {stop : Stop} (overrun : Overrun crc limit picked stop)
    (more : List Located) : Overrun crc limit (picked ++ more) stop :=
  ⟨overrun.1, fun all => overrun.2 all.front⟩

theorem Copies.after {middle : Session} {logs : List FileLog} {log : FileLog}
    {result : Except Stop (DB × DataFile) × Session} (same : middle.db = session.db)
    (copies : Copies env base level limit middle picked (Blocked env.crc limit picked logs) result) :
    Copies env base level limit session picked (Blocked env.crc limit picked (log :: logs))
      result := by
  obtain ⟨outcome, reached⟩ := result
  cases outcome with
  | ok value => exact ⟨copies.1.trans same, copies.2⟩
  | error stop =>
    obtain ⟨db, blocked, built⟩ := copies
    refine ⟨db.trans same, ?_, built⟩
    rcases blocked with overrun | ⟨stopped, other, member, empty⟩
    · exact .inl overrun
    · exact .inr ⟨stopped, other, mem_cons_of_mem _ member, empty⟩

theorem run_mergeFiles (logs : List FileLog) (files : List DataFile) (session : Session)
    (picked : List Located) (tempDb : DB) (hintFile : DataFile)
    (copying : Copying env base level limit picked tempDb hintFile session.world)
    (ids : files.map (·.fileId) = logs.map (·.fileId))
    (handles : ∀ file ∈ files, file.handle = ⟨level, .data file.fileId⟩) (content : ∀ log ∈ logs,
      base.fs.content? (log.handle level) = some (logBytes env.crc log.records))
    (readable : ∀ log ∈ logs, log.Readable env.crc) :
    Copies env base level limit session
      (picked ++ session.db.index.liveRecords (logs.flatMap (·.located env.crc)))
      (Blocked env.crc limit
        (picked ++ session.db.index.liveRecords (logs.flatMap (·.located env.crc))) logs)
      ((mergeFiles env files tempDb hintFile).run session) ∧
    ∀ value reached, (mergeFiles env files tempDb hintFile).run session = (.ok value, reached) →
      ∀ log ∈ logs, log.records ≠ [] := by
  induction logs generalizing files session picked tempDb hintFile with
  | nil =>
    obtain rfl : files = [] := by simpa using ids
    rw [flatMap_nil, Indexer.liveRecords, filter_nil, append_nil]
    exact ⟨⟨rfl, copying⟩, fun _ _ _ _ member => by cases member⟩
  | cons log logs ih =>
    cases files with
    | nil => cases ids
    | cons file files =>
      rw [map_cons, map_cons] at ids
      obtain ⟨id, others⟩ := List.cons.inj ids
      have handle : file.handle = log.handle level := by
        rw [handles file mem_cons_self, id]
        rfl
      have outside : file.handle.level ≠ getMergenceDirectory level := by
        rw [handle]
        exact Nat.ne_of_lt (Nat.lt_succ_self _)
      have bytes := content log mem_cons_self
      have here := readable log mem_cons_self
      have whole : base.fs.content file.handle = fileBytes env.crc log.records := by
        rw [handle, Fs.content_of_content? bytes, logBytes_eq_fileBytes here.storable]
      have same : session.world.fs.content file.handle = base.fs.content file.handle := by
        rw [Fs.content, copying.disk.outside _ outside]
        rfl
      have split : session.db.index.liveRecords ((log :: logs).flatMap (·.located env.crc)) =
          session.db.index.liveRecords (log.located env.crc) ++
            session.db.index.liveRecords (logs.flatMap (·.located env.crc)) := by
        rw [flatMap_cons, Indexer.liveRecords, filter_append]
        rfl
      have unfolded : (mergeFiles env (file :: files) tempDb hintFile).run session =
          (mergeFile env file ((session.world.fs.content file.handle).length + 1) 0 tempDb
            hintFile >>= fun copied => mergeFiles env files copied.1 copied.2).run session := rfl
      rw [unfolded, split, ← append_assoc]
      by_cases empty : log.records = []
      · have stopped := @run_mergeFile_empty env tempDb hintFile file session
          (session.world.fs.content file.handle).length
          (by rw [same, whole, empty]; rfl)
        rw [run_bind_error stopped]
        refine ⟨⟨rfl, .inr ⟨rfl, log, mem_cons_self, empty⟩, ?_⟩, fun _ _ ended => by cases ended⟩
        rw [append_assoc]
        exact copying.toBuilt.more _
      · have keyed : ∀ record ∈ log.records, record.key ≠ [] := fun record member =>
          (here.storable record member).keyed
        have ran := run_mergeFile [] log.records
          ((session.world.fs.content file.handle).length + 1) session picked tempDb hintFile
          copying outside whole (fileBytes_ne_nil keyed empty) here.storable here.tagged
          (by rw [same, whole]; exact Nat.lt_succ_of_le (length_le_fileBytes keyed))
        rw [id] at ran
        cases result : (mergeFile env file
            ((session.world.fs.content file.handle).length + 1) 0 tempDb hintFile).run
              session with
        | mk outcome middle =>
          simp only [fileBytes_nil, length_nil, result] at ran
          cases outcome with
          | error stop =>
            obtain ⟨db, overrun, built⟩ := ran
            rw [run_bind_error result]
            exact ⟨⟨db, .inl (overrun.more _), built.more _⟩, fun _ _ ended => by cases ended⟩
          | ok value =>
            obtain ⟨tempDb', hintFile'⟩ := value
            obtain ⟨db, copying'⟩ := ran
            obtain ⟨copies, full⟩ := ih files middle _ tempDb' hintFile' copying' others
              (fun other member => handles other (mem_cons_of_mem _ member))
              (fun other member => content other (mem_cons_of_mem _ member))
              (fun other member => readable other (mem_cons_of_mem _ member))
            rw [run_bind_ok result]
            rw [db] at copies
            refine ⟨copies.after db, fun value reached ended other member => ?_⟩
            rcases mem_cons.mp member with rfl | member
            · exact empty
            · exact full value reached ended other member

end Copy

end Bitdb
