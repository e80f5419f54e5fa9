import Bitdb.Base.Resume
import Bitdb.Merge

/-! `Open` on a directory where a merge has been installed: the index is built from the hint file,
and the data files from the marked one on are replayed over it. -/

set_option autoImplicit false

namespace Bitdb

open Base List Program DataFile

section Decimal

theorem toNat_of_isDigit {character : Char} (digit : character.isDigit = true) :
    48 ≤ character.toNat ∧ character.toNat ≤ 57 := by
  simp only [Char.isDigit, Bool.and_eq_true, decide_eq_true_eq] at digit
  exact digit

theorem characters_toDecimal (number : Nat) :
    (toDecimal number).map (fun byte => Char.ofNat byte.toNat) = Nat.toDigits 10 number := by
  rw [toDecimal, map_map]
  conv => rhs; rw [← map_id (Nat.toDigits 10 number)]
  refine map_congr_left fun character member => ?_
  have digit := Nat.isDigit_of_mem_toDigits (by decide) (by decide) member
  have small : character.toNat < 256 := by
    have bounds := toNat_of_isDigit digit
    omega
  simp [Nat.mod_eq_of_lt small]

theorem splitSign_of_isDigit {first : Char} (digit : first.isDigit = true) (rest : List Char) :
    splitSign (first :: rest) = (false, first :: rest) := by
  have bounds := toNat_of_isDigit digit
  rw [splitSign]
  · rintro _ ⟨⟩
    simp at bounds
  · rintro _ ⟨⟩
    simp at bounds

theorem stoi_toDecimal {number : Nat} (small : number < 2 ^ 31) :
    stoi (toDecimal number) = .ok (number : Int) := by
  have digits : ∀ character ∈ Nat.toDigits 10 number, character.isDigit = true :=
    fun character member => Nat.isDigit_of_mem_toDigits (by decide) (by decide) member
  cases shape : Nat.toDigits 10 number with
  | nil => exact absurd shape Nat.toDigits_ne_nil
  | cons first rest =>
    have here : first.isDigit = true := digits first (shape ▸ mem_cons_self)
    have noSpace : isSpace first = false := by
      have bounds := toNat_of_isDigit here
      simp only [isSpace, decide_eq_false_iff_not, not_or]
      refine ⟨?_, by omega⟩
      rintro rfl
      simp at bounds
    have all : (first :: rest).takeWhile Char.isDigit = first :: rest := by
      rw [takeWhile_eq_self_iff, ← shape]
      exact digits
    have magnitude : Nat.ofDigitChars 10 (first :: rest) 0 = number := by
      rw [← shape]
      exact Nat.ofDigitChars_ten_toDigits
    simp only [stoi, characters_toDecimal, shape, dropWhile_cons, noSpace, Bool.false_eq_true,
      ↓reduceIte, splitSign_of_isDigit here, all, magnitude, isEmpty_cons, false_or]
    rw [if_neg (by omega)]

end Decimal

def MergedItem.action (item : MergedItem) : KeyAction :=
  .put item.key ⟨item.placed.1, item.placed.2.value⟩

structure MergedItem.Leads (crc : Crc32c) (item : MergedItem) : Prop where
  storable : item.hint.Storable crc
  named : item.hint.key = item.key
  nulFree : 0 ∉ item.key
  position : decodeLogRecordPosition (.ofString item.hint.value) = .ok item.placed.1

def hintMap (items : List MergedItem) : List Byte → Option Slot :=
  (items.map MergedItem.action).foldl Journal.Action.overwrite fun _ => none

section HintFile

variable {env : Platform} {session : Session}

theorem run_loadHintRecords (file : DataFile) (front rest : List MergedItem) (fuel : Nat)
    (session : Session) {live : List Byte → Option Slot}
    (content : session.world.fs.content file.handle =
      fileBytes env.crc ((front ++ rest).map (·.hint)))
    (nonempty : fileBytes env.crc ((front ++ rest).map (·.hint)) ≠ [])
    (leads : ∀ item ∈ rest, item.Leads env.crc) (enough : rest.length < fuel)
    (shows : session.db.index.Shows live) :
    ∃ index, (loadHintRecords env file fuel
        (fileBytes env.crc (front.map (·.hint))).length).run session =
          (.ok (), session.withIndex index) ∧
      index.Shows ((rest.map MergedItem.action).foldl Journal.Action.overwrite live) := by
  induction rest generalizing front fuel session live with
  | nil =>
    obtain ⟨fuel, rfl⟩ : ∃ more, fuel = more + 1 := ⟨fuel - 1, by omega⟩
    rw [append_nil] at content nonempty
    refine ⟨session.db.index, ?_, shows⟩
    rw [loadHintRecords, run_bind_ok (run_readEnd content nonempty)]
    rfl
  | cons item rest ih =>
    obtain ⟨fuel, rfl⟩ : ∃ more, fuel = more + 1 := ⟨fuel - 1, by omega⟩
    obtain ⟨storable, named, nulFree, position⟩ := leads item mem_cons_self
    have nonzero : ¬ (encodeLogRecord env.crc item.hint).length = 0 := by
      have positive : 6 < (encodeLogRecord env.crc item.hint).length :=
        encodeLogRecord_length_pos storable.keyed
      omega
    have regroup : front ++ [item] ++ rest = front ++ item :: rest := by simp
    have read := run_readNext storable (content.trans (by rw [map_append, map_cons]))
    have advanced := length_fileBytes_concat env.crc (front.map (·.hint)) item.hint
    obtain ⟨index, ran, shows'⟩ := ih (front ++ [item]) fuel
      (session.withIndex (session.db.index.insert item.key item.placed.1))
      (by rw [regroup]; exact content) (by rw [regroup]; exact nonempty)
      (fun other member => leads other (mem_cons_of_mem _ member))
      (by simpa using enough) (shows.insert item.key ⟨item.placed.1, item.placed.2.value⟩)
    refine ⟨index, ?_, shows'⟩
    rw [map_append, map_singleton, advanced] at ran
    rw [loadHintRecords, run_bind_ok read]
    simp only [nonzero, ↓reduceIte, position, run_ofExcept_ok_bind, run_readDb_bind, Indexer.put,
      named, Bytes.cString_ofString nulFree, run_modifyDb_bind, run_checkTrue_bind]
    exact ran

variable {items : List MergedItem} {fileId : Nat} {lower : List FileLog}

theorem run_loadIndexFromHintFile (reliable : session.world.script = [])
    (stored : session.world.fs.content? ⟨session.level, .hintIndex⟩ =
      some (fileBytes env.crc (items.map (·.hint)))) (some_ : items ≠ [])
    (leads : ∀ item ∈ items, item.Leads env.crc) (blank : session.db.index = ∅) :
    ∃ index, (loadIndexFromHintFile env).run session = (.ok .ok, session.withIndex index) ∧
      index.Shows (hintMap items) := by
  have keyed : ∀ record ∈ items.map (·.hint), record.key ≠ [] := by
    intro record member
    obtain ⟨item, inside, rfl⟩ := mem_map.mp member
    exact (leads item inside).storable.keyed
  have there : (isFileExist ⟨session.level, .hintIndex⟩).run session.world =
      (.ok true, session.world) := by
    simp [isFileExist, stored]
  have opened : (openHintFile session.level).run session.world =
      (.ok ⟨0, 0, ⟨session.level, .hintIndex⟩⟩, session.world) :=
    run_bind_ok (run_openFile_existing reliable stored)
  have content := Fs.content_of_content? stored
  have enough : items.length < (session.world.fs.content
      ⟨session.level, .hintIndex⟩).length + 1 := by
    rw [content, ← length_map (f := (·.hint))]
    exact Nat.lt_succ_of_le (length_le_fileBytes keyed)
  have empty : session.db.index.Shows fun _ => none := by
    rw [blank]
    exact tracks_empty.shows
  obtain ⟨index, ran, shows⟩ := run_loadHintRecords
    ⟨0, 0, ⟨session.level, .hintIndex⟩⟩ [] items _ session content
    (fileBytes_ne_nil keyed (by simpa using some_)) leads enough empty
  refine ⟨index, ?_, shows⟩
  rw [loadIndexFromHintFile, run_readDb_bind, run_io_bind there]
  simp only [↓reduceIte]
  rw [run_io_bind opened, run_read_bind]
  exact run_bind_ok ran

theorem storable_mergedRecord {crc : Crc32c} (small : fileId < 2 ^ 31) :
    (mergedRecord fileId).Storable crc := by
  have keyed : (mergedRecord fileId).key ≠ [] := show mergedLogRecordKey ≠ [] by decide
  have key : (mergedRecord fileId).key.length = 6 := show mergedLogRecordKey.length = 6 by decide
  have value : (mergedRecord fileId).value.length ≤ 10 := by
    rw [mergedRecord, toDecimal, length_map, Nat.length_toDigits_le_iff (by decide) (by decide)]
    omega
  have head := logRecordHead_length_le crc (mergedRecord fileId)
  refine ⟨keyed, ?_⟩
  rw [encodeLogRecord_length keyed, maxTransfer]
  rw [maxLogRecordHeaderSize] at head
  omega

theorem run_findNonMergedFileID {world : World} {level : Nat} (reliable : world.script = [])
    (stored : world.fs.content? ⟨level, .merged⟩ =
      some (writtenBytes env.crc (mergedRecord fileId))) (small : fileId < 2 ^ 31) :
    (findNonMergedFileID env level).run world = (.ok (some fileId), world) := by
  have storable : (mergedRecord fileId).Storable env.crc := storable_mergedRecord small
  have there : (isFileExist ⟨level, .merged⟩).run world = (.ok true, world) := by
    simp [isFileExist, stored]
  have opened : (openMergedFile level).run world = (.ok ⟨0, 0, ⟨level, .merged⟩⟩, world) :=
    run_bind_ok (run_openFile_existing reliable stored)
  have content : world.fs.content ⟨level, .merged⟩ =
      [] ++ encodeLogRecord env.crc (mergedRecord fileId) ++ [] := by
    rw [Fs.content_of_content? stored, storable.writtenBytes_eq, nil_append, append_nil]
  have read : (readLogRecordAt env.crc ⟨0, 0, ⟨level, .merged⟩⟩ 0).run world =
      (.ok (mergedRecord fileId, (encodeLogRecord env.crc (mergedRecord fileId)).length),
        world) := by
    rw [readLogRecordAt, run_read_bind, run_ofExcept, content]
    exact congrArg (·, world) (readLogRecord_at storable [] [])
  have number : ((fileId : Int) % 0x100000000).toNat = fileId := by omega
  have found : (getNonMergedFileID env level).run world = (.ok fileId, world) := by
    rw [getNonMergedFileID, run_bind_ok opened, run_bind_ok read]
    simp only [mergedRecord, stoi_toDecimal small, run_ofExcept_ok_bind, number]
    rfl
  rw [findNonMergedFileID, run_bind_ok there]
  exact run_bind_ok found

theorem run_loadFiles_skip (skipped : ∀ file ∈ lower, file.fileId < fileId) (rest : List Nat)
    (load : LoadState) :
    loadFiles env (some fileId) (lower.map (·.fileId) ++ rest) load =
      loadFiles env (some fileId) rest load := by
  induction lower with
  | nil => rfl
  | cons file lower ih =>
    have below := skipped file mem_cons_self
    rw [map_cons, cons_append, loadFiles]
    simp only [Option.any_some, below, decide_true, ↓reduceIte]
    exact ih fun other member => skipped other (mem_cons_of_mem _ member)

abbrev fileEntries (crc : Crc32c) (files : List FileLog) : List (Journal.Entry (List Byte) Slot) :=
  (files.flatMap (·.located crc)).map Located.entry

/-- A directory with an installed merge: its data files, the first of which stand below the
marked id, the hint file and the marker. -/
structure HintDir (crc : Crc32c) (fs : Fs) (level fileId : Nat) (lower upper : List FileLog)
    (items : List MergedItem) : Prop where
  stored : FilesStored crc fs level (lower ++ upper)
  noMergence : fs.dir? (getMergenceDirectory level) = none
  skipped : ∀ file ∈ lower, file.fileId < fileId
  kept : ∀ file ∈ upper, fileId ≤ file.fileId
  hint : fs.content? ⟨level, .hintIndex⟩ = some (fileBytes crc (items.map (·.hint)))
  marker : fs.content? ⟨level, .merged⟩ = some (writtenBytes crc (mergedRecord fileId))
  small : fileId < 2 ^ 31
  nonempty : items ≠ []
  leads : ∀ item ∈ items, item.Leads crc

theorem run_loadAll_hinted {world : World} {options : Options} {front : List FileLog}
    {last : FileLog} (reliable : world.script = [])
    (dir : HintDir env.crc world.fs options.dirPath.level fileId lower (front ++ [last]) items)
    (loadable : ∀ file ∈ front ++ [last], file.Loadable env.crc) :
    match Journal.replay ⟨hintMap items, fun _ => []⟩
        (fileEntries env.crc (front ++ [last])) with
    | some state => ∃ index txnId, (loadAll env).run ⟨DB.new options, world⟩ =
        (.ok (), loadedSession env.crc ⟨DB.new options, world⟩ (lower ++ front) last index txnId) ∧
          index.Shows state.live
    | none => ∃ reached, (loadAll env).run ⟨DB.new options, world⟩ =
        (.error (.failed missingKeyStatus), reached) := by
  have stored := dir.stored
  rw [← append_assoc] at stored
  obtain ⟨ascending, _, _⟩ := pairwise_append.mp stored.ascending
  obtain ⟨hinted, hinting, shows⟩ := @run_loadIndexFromHintFile env
    (withDataFiles ⟨DB.new options, world⟩ (lower ++ front) last) items reliable dir.hint
    dir.nonempty dir.leads rfl
  have tracks : Tracks hinted (∅ : TxnRecords) ⟨hintMap items, fun _ => []⟩ :=
    ⟨shows, tracks_empty.pending, tracks_empty.nulFree⟩
  have ran := run_loadFiles (some fileId) front
    ((withDataFiles ⟨DB.new options, world⟩ (lower ++ front) last).withIndex hinted)
    ⟨nonTxnId, ∅⟩ ⟨hintMap items, fun _ => []⟩ rfl
    (fun file member => ⟨0, lookup_openedOlder ascending member⟩)
    (fun _ member => mem_append_right _ member)
    (fun file member => decide_eq_false (Nat.not_lt.mpr (dir.kept file member)))
    (fun file member => dir.stored.content file (mem_append_right _ member)) loadable tracks
  rw [← run_loadFiles_skip dir.skipped, ← map_append, ← append_assoc] at ran
  have found := run_findNonMergedFileID reliable dir.marker dir.small
  cases replayed : Journal.replay ⟨hintMap items, fun _ => []⟩
      (fileEntries env.crc (front ++ [last])) with
  | none =>
    rw [replayed] at ran
    obtain ⟨index, stopped⟩ := ran
    exact ⟨_, run_loadAll_opened reliable dir.noMergence stored hinting found stopped⟩
  | some state =>
    rw [replayed] at ran
    obtain ⟨index, load, returned, tracks', _⟩ := ran
    exact ⟨index, load.currentTxnId,
      run_loadAll_opened reliable dir.noMergence stored hinting found returned, tracks'.shows⟩

theorem run_openDepth_hinted {world : World} {options : Options} {depth : Nat}
    {front : List FileLog} {last : FileLog} (valid : checkOptions options = .ok ())
    (reliable : world.script = [])
    (dir : HintDir env.crc world.fs options.dirPath.level fileId lower (front ++ [last]) items)
    (loadable : ∀ file ∈ front ++ [last], file.Loadable env.crc) :
    match Journal.replay ⟨hintMap items, fun _ => []⟩
        (fileEntries env.crc (front ++ [last])) with
    | some state => ∃ db, (openDepth env (depth + 1) options false).run world = (.ok db, world) ∧
        Attached env ⟨db, world⟩ ⟨lower ++ front, some last⟩ ∧ db.index.Shows state.live
    | none => ∃ stop reached,
        (openDepth env (depth + 1) options false).run world = (.error stop, reached) := by
  have ran := run_loadAll_hinted reliable dir loadable
  have stored := dir.stored
  rw [← append_assoc] at stored
  cases replayed : Journal.replay ⟨hintMap items, fun _ => []⟩
      (fileEntries env.crc (front ++ [last])) with
  | none =>
    rw [replayed] at ran
    obtain ⟨reached, failed⟩ := ran
    exact ⟨_, _, run_openDepth_failed false valid dir.stored.present failed⟩
  | some state =>
    rw [replayed] at ran
    obtain ⟨index, txnId, returned, shows⟩ := ran
    have body : (openBody env depth false).run ⟨DB.new options, world⟩ = _ := run_bind_ok returned
    refine ⟨_, ?_, attached_loaded reliable stored index txnId, shows⟩
    rw [run_openDepth valid (run_checkOrCreateDirectory_there dir.stored.present),
      run_bind_ok (run_onDb body)]
    rfl

end HintFile

end Bitdb
