import Bitdb.FailureProperties
import Bitdb.HintLoadProperties
import Bitdb.PackingProperties

/-! Loading from the hint file of a merge compared with replaying every data file. -/

set_option autoImplicit false

namespace Bitdb

open Base List Log

/-- The data files that are loaded: those a merge has found, or those after further updates. -/
inductive LogAfter (env : Platform) (session merged : Session) : Fs → Prop where
  | now : LogAfter env session merged session.world.fs
  | later {updates : List Update} {reached : Session}
      (run : Run (Update.Succeeds env) merged updates reached) :
      LogAfter env session merged reached.world.fs

/-- The directory with the merge installed: its output below the marked id, the original files
from there on, its hint file and its marker. -/
structure Installed (mergence data : Fs) (fileId : Nat) (disk : Fs) : Prop where
  dirs : disk.dirs.length = 1
  lower : ∀ other < fileId, disk.content? ⟨0, .data other⟩ =
    mergence.content? ⟨getMergenceDirectory 0, .data other⟩
  upper : ∀ other, fileId ≤ other → disk.content? ⟨0, .data other⟩ = data.content? ⟨0, .data other⟩
  hint : disk.content? ⟨0, .hintIndex⟩ = mergence.content? ⟨getMergenceDirectory 0, .hintIndex⟩
  marker : disk.content? ⟨0, .merged⟩ = mergence.content? ⟨getMergenceDirectory 0, .merged⟩

/-- The directory with the original data files and nothing else. -/
structure DataOnly (data disk : Fs) : Prop where
  dirs : disk.dirs.length = 1
  data : ∀ fileId, disk.content? ⟨0, .data fileId⟩ = data.content? ⟨0, .data fileId⟩
  noHint : disk.content? ⟨0, .hintIndex⟩ = none
  noMerged : disk.content? ⟨0, .merged⟩ = none

def Opened (env : Platform) (options : Options) (disk : Fs) (session : Session) : Prop :=
  (openDb env options false).run (.on disk) = (.ok session.db, session.world)

/-- Both directories can be opened, and every `Get` returns the same in them. -/
def OpensAlike (env : Platform) (options : Options) (left right : Fs) : Prop :=
  ∃ session other, Opened env options left session ∧ Opened env options right other ∧
    ∀ key, ((get env key true).run session).1 = ((get env key true).run other).1

def Fs.fileActions (crc : Crc32c) (fs : Fs) (fileId : Nat) : List KeyAction :=
  Journal.survivors (((fs.fileLog crc 0 fileId).located crc).map Located.entry)

/-- No key that is gone has a tombstone as the first thing the file does to it. -/
def NoStaleTombstone (crc : Crc32c) (session : Session) (fileId : Nat) : Prop :=
  ∀ key, session.db.index.lookup key = none →
    (session.world.fs.fileActions crc fileId).find? (fun action => action.key = key) ≠
      some (.delete key)

section Grows

/-- The log has grown behind its files, in transactions of its own. -/
structure Log.Grows (crc : Crc32c) (log : Log) (new : List Located) (log' : Log) : Prop where
  files : log.files <+: log'.older
  records : log'.records crc = log.records crc ++ new
  apart : ∀ found ∈ log.records crc, ∀ txn, (Located.entry found).txn = some txn →
    Journal.Fresh txn (new.map Located.entry)

theorem Log.older_append (crc : Crc32c) (limit : Nat) (log : Log) (record : LogRecord) :
    log.older <+: (log.append crc limit record).older := by
  rw [Log.append]
  split
  · exact prefix_rfl
  · exact prefix_append _ _

theorem Log.older_appendAll (crc : Crc32c) (limit : Nat) (log : Log) (records : List LogRecord) :
    log.older <+: (log.appendAll crc limit records).older := by
  induction records generalizing log with
  | nil => exact prefix_rfl
  | cons record records ih =>
    exact (log.older_append crc limit record).trans (ih (log.append crc limit record))

theorem Log.grows_rotated {crc : Crc32c} {log : Log} {last : FileLog}
    (active : log.active = some last) : log.Grows crc [] (log.rotated last) := by
  refine ⟨?_, ?_, ?_⟩
  · rw [files_active active]
    exact prefix_rfl
  · rw [records_rotated active, append_nil]
  · intro _ _ _ _ _ impossible
    cases impossible

variable {env : Platform} {session reached : Session} {log log' : Log} {keys : KeyState}
  {new : List Located} {update : Update}

/-- A directory whose log has the files of another one and more behind them. -/
structure Log.Continued (crc : Crc32c) (log : Log) (more : List FileLog) (data : Fs) (log' : Log)
    (final : KeyState) : Prop where
  resting : Resting crc data log' final
  files : log'.files = log.files ++ more
  apart : ∀ found ∈ log.records crc, ∀ txn, (Located.entry found).txn = some txn →
    Journal.Fresh txn ((more.flatMap (·.located crc)).map Located.entry)

section

variable (grows : log.Grows env.crc new log')

include grows

section

variable (live : Live env session log' keys)

include live

theorem Log.Grows.step (succeeds : update.Succeeds env session reached) :
    ∃ new' log'' keys', log.Grows env.crc new' log'' ∧ Live env reached log'' keys' := by
  obtain ⟨records, txnId, keys', small, wrote⟩ := live.wrote_update succeeds
  refine ⟨new ++ log'.locate env.crc session.limit records, _, keys', ?_,
    live.wrote wrote small succeeds.whole⟩
  refine ⟨grows.files.trans (older_appendAll _ _ _ _), ?_, ?_⟩
  · rw [records_appendAll, grows.records, append_assoc]
  · intro found member txn owned other inside same
    rw [map_append] at inside
    rcases mem_append.mp inside with before | newest
    · exact grows.apart found member txn owned other before same
    · obtain ⟨placed, there, rfl⟩ := mem_map.mp newest
      have recorded : placed.2 ∈ records := by
        rw [← locate_records env.crc session.limit log' records]
        exact mem_map_of_mem there
      obtain ⟨key, id, tagged, fresh⟩ := wrote.tagged placed.2 recorded
      have old : txn ≤ session.db.txnId.toNat :=
        live.txn_le (grows.records ▸ mem_append_left _ member) owned
      rw [show (Located.entry placed).txn = _ from tagged.entry_txn placed.1] at same
      split at same
      · cases same
      · rename_i real
        have above := (fresh.resolve_left real).2
        cases same
        omega

theorem Log.Grows.run {updates : List Update}
    (run : Run (Update.Succeeds env) session updates reached) :
    ∃ new' log'' keys', log.Grows env.crc new' log'' ∧ Live env reached log'' keys' := by
  refine Run.invariant (fun _ session => ∃ new' log'' keys', log.Grows env.crc new' log'' ∧
    Live env session log'' keys') ?_ [] ⟨new, log', keys, grows, live⟩ run
  rintro _ _ _ _ ⟨_, _, _, grows, live⟩ succeeds
  exact grows.step live succeeds

theorem Log.Grows.continued : ∃ more, log.Continued env.crc more session.world.fs log' keys := by
  obtain ⟨extra, split⟩ := grows.files
  have files : log'.files = log.files ++ (extra ++ log'.active.toList) := by
    rw [Log.files, ← split, append_assoc]
  have behind : (extra ++ log'.active.toList).flatMap (·.located env.crc) = new := by
    have records := grows.records
    rw [Log.records, files, flatMap_append] at records
    exact append_cancel_left records
  refine ⟨_, live.resting, files, ?_⟩
  rw [behind]
  exact grows.apart

end

end

theorem LogAfter.continued {merged : Session} {last : FileLog} {data : Fs}
    (after : LogAfter env session merged data) (live : Live env session log keys)
    (active : log.active = some last) (merges : Merges env session log last (.ok .ok) merged) :
    ∃ more log' final, log.Continued env.crc more data log' final := by
  cases after with
  | now =>
    refine ⟨[], log, keys, live.resting, (append_nil _).symm, ?_⟩
    intro _ _ _ _ _ impossible
    cases impossible
  | later run =>
    obtain ⟨new, log', final, grows, later⟩ := (grows_rotated active).run
      (live.merged active merges rfl) run
    obtain ⟨more, continued⟩ := grows.continued later
    exact ⟨more, log', final, continued⟩

end Grows

section HintMap

theorem exists_item_of_hintMap {items : List MergedItem} {key : List Byte} {slot : Slot}
    (found : hintMap items key = some slot) :
    ∃ item ∈ items, item.key = key ∧ slot = ⟨item.placed.1, item.placed.2.value⟩ := by
  rcases Journal.foldl_overwrite_some found with impossible | put
  · cases impossible
  · obtain ⟨item, member, same⟩ := mem_map.mp put
    injection same with named stored
    exact ⟨item, member, named, stored.symm⟩

theorem isSome_foldl_hints (items : List MergedItem) (live : List Byte → Option Slot)
    {key : List Byte} (there : (live key).isSome ∨ key ∈ items.map (·.key)) :
    ((items.map MergedItem.action).foldl Journal.Action.overwrite live key).isSome := by
  induction items generalizing live with
  | nil => exact there.resolve_right not_mem_nil
  | cons item items ih =>
    refine ih _ ?_
    by_cases same : key = item.key
    · left
      rw [MergedItem.action, Journal.Action.overwrite, same, Function.update_self]
      rfl
    · rw [MergedItem.action, Journal.Action.overwrite, Function.update_of_ne same]
      exact there.imp_right fun listed => (mem_cons.mp listed).resolve_left same

variable {env : Platform} {session : Session} {log : Log} {keys : KeyState}

theorem Live.hintMap_alike (live : Live env session log keys) (limit : Nat) (key : List Byte) :
    (hintMap (session.mergeItems env log limit) key).map Slot.value =
      (keys.live key).map Slot.value := by
  cases hinted : hintMap (session.mergeItems env log limit) key with
  | none =>
    cases here : keys.live key with
    | none => rfl
    | some slot =>
      obtain ⟨found, picked, real, _⟩ := live.exists_live here
      have listed : key ∈ (session.mergeItems env log limit).map (·.key) := by
        rw [mergedItems_keys, ← real]
        exact mem_map_of_mem picked
      have there := isSome_foldl_hints _ (fun _ => none) (.inr listed)
      rw [← hintMap, hinted] at there
      cases there
  | some slot =>
    obtain ⟨item, member, rfl, rfl⟩ := exists_item_of_hintMap hinted
    obtain ⟨found, zipped, named, copied, _⟩ := mem_mergedItems member
    rw [named, (live.slot_of_live (of_mem_zip zipped).1).1, copied]
    rfl

theorem Live.hint_below (live : Live env session log keys) {last : FileLog} {limit : Nat}
    (active : log.active = some last) (packed : log.Packed env.crc limit) {key : List Byte}
    {slot stored : Slot} (hinted : hintMap (session.mergeItems env log limit) key = some slot)
    (here : keys.live key = some stored)
    (offered : ∃ entry ∈ fileEntries env.crc log.older, entry.Offers key stored) :
    ∃ placed ∈ ((mergedLog env.crc limit (session.liveRecords env log)).files.filter
        (·.fileId < last.fileId)).flatMap (·.located env.crc),
      placed.1 = slot.pst ∧ placed.2.value = slot.value ∧ placed.2.type ≠ .deleted := by
  obtain ⟨item, member, rfl, rfl⟩ := exists_item_of_hintMap hinted
  obtain ⟨found, zipped, named, copied, _⟩ := mem_mergedItems member
  obtain ⟨slot, kept⟩ := live.slot_of_live (of_mem_zip zipped).1
  rw [named, slot] at here
  cases here
  obtain ⟨_, offering, offers⟩ := offered
  obtain ⟨other, inside, rfl⟩ := mem_map.mp offering
  obtain ⟨file, older, placed⟩ := mem_flatMap.mp inside
  have ascending := live.resting.stored.ascending
  have same : other.1 = found.1 := (Located.carries_of_offers offers).pst
  have below : found.1.fid < last.fileId := by
    rw [← same, fid_of_mem_located placed]
    rw [files_active active] at ascending
    exact (pairwise_append.mp ascending).2.2 file older last mem_cons_self
  have least := mergedRecords_fid_le session.db.index ascending live.resting.readable.files packed
    zipped
  have copy := (of_mem_zip zipped).2
  rw [← records_mergedLog] at copy
  obtain ⟨target, listed, there⟩ := mem_flatMap.mp copy
  refine ⟨item.placed, mem_flatMap.mpr ⟨target, mem_filter.mpr ⟨listed, ?_⟩, there⟩, rfl, rfl, ?_⟩
  · rw [decide_eq_true_eq, ← fid_of_mem_located there]
    exact least.trans_lt below
  · rw [copied]
    exact kept

end HintMap

section Directory

variable {crc : Crc32c} {mergence data disk : Fs} {lower older more : List FileLog}
  {last : FileLog}

theorem FilesStored.last_le (stored : FilesStored crc data 0 (older ++ last :: more)) :
    (∀ file ∈ older, file.fileId < last.fileId) ∧
      ∀ file ∈ last :: more, last.fileId ≤ file.fileId := by
  obtain ⟨_, upper, apart⟩ := pairwise_append.mp stored.ascending
  refine ⟨fun file member => apart file member last mem_cons_self, fun file member => ?_⟩
  rcases mem_cons.mp member with rfl | behind
  · exact Nat.le_refl _
  · exact (rel_of_pairwise_cons upper behind).le

theorem Installed.stored (installed : Installed mergence data last.fileId disk)
    (merged : FilesStored crc mergence (getMergenceDirectory 0) lower)
    (stored : FilesStored crc data 0 (older ++ last :: more)) :
    FilesStored crc disk 0 (lower.filter (·.fileId < last.fileId) ++ last :: more) := by
  obtain ⟨below, above⟩ := stored.last_le
  have under : ∀ file ∈ lower.filter (·.fileId < last.fileId), file.fileId < last.fileId :=
    fun file member => of_decide_eq_true (mem_filter.mp member).2
  refine ⟨?_, ?_, ?_, ?_⟩
  · exact Fs.dir?_isSome_iff.mpr (by rw [installed.dirs]; exact Nat.zero_lt_one)
  · refine pairwise_append.mpr ⟨merged.ascending.filter _,
      (pairwise_append.mp stored.ascending).2.1, fun left here right there => ?_⟩
    exact (under left here).trans_le (above right there)
  · intro file member
    rcases mem_append.mp member with here | there
    · exact (installed.lower file.fileId (under file here)).trans
        (merged.content file (mem_filter.mp here).1)
    · exact (installed.upper file.fileId (above file there)).trans
        (stored.content file (mem_append_right _ there))
  · intro fileId present
    by_cases less : fileId < last.fileId
    · rw [installed.lower fileId less] at present
      obtain ⟨file, member, rfl⟩ := merged.only fileId present
      exact ⟨file, mem_append_left _ (mem_filter.mpr ⟨member, decide_eq_true less⟩), rfl⟩
    · rw [installed.upper fileId (Nat.not_lt.mp less)] at present
      obtain ⟨file, member, rfl⟩ := stored.only fileId present
      rcases mem_append.mp member with before | here
      · exact absurd (below file before) less
      · exact ⟨file, mem_append_right _ here, rfl⟩

end Directory

section Compared

variable {env : Platform} {session merged : Session} {log log' : Log} {keys final : KeyState}
  {last : FileLog} {more : List FileLog} {data hinted plain : Fs} {limit : Nat}
  {picked : List Located} {options : Options}

section

variable (continued : log.Continued env.crc more data log' final)

include continued

theorem Log.Continued.files_eq (active : log.active = some last) :
    log'.files = log.older ++ last :: more := by
  rw [continued.files, files_active active, append_assoc]
  rfl

theorem Log.Continued.mem_records (active : log.active = some last) {found : Located}
    (member : found ∈ (last :: more).flatMap (·.located env.crc)) :
    found ∈ log'.records env.crc := by
  rw [Log.records, continued.files_eq active, flatMap_append]
  exact mem_append_right _ member

theorem Log.Continued.loadable (active : log.active = some last)
    (full : ∀ file ∈ log'.files, file.records ≠ []) :
    ∀ file ∈ last :: more, file.Loadable env.crc := by
  intro file member
  have inside : file ∈ log'.files := by
    rw [continued.files_eq active]
    exact mem_append_right _ member
  exact ⟨continued.resting.readable.files file inside, full file inside⟩

theorem Log.Continued.opened (only : DataOnly data plain)
    (full : ∀ file ∈ log'.files, file.records ≠ []) (valid : checkOptions options = .ok ())
    (top : options.dirPath.level = 0) :
    ∃ session, Opened env options plain session ∧ Serves env session log' final.live := by
  have present : (plain.dir? 0).isSome :=
    Fs.dir?_isSome_iff.mpr (by rw [only.dirs]; exact Nat.zero_lt_one)
  have noMergence : plain.dir? (getMergenceDirectory 0) = none := by
    rw [← Option.not_isSome_iff_eq_none, Fs.dir?_isSome_iff, only.dirs]
    exact Nat.lt_irrefl 1
  have stored : FilesStored env.crc plain options.dirPath.level log'.files := by
    rw [top]
    exact continued.resting.stored.of_same present only.data
  obtain ⟨db, ran, loaded⟩ := @run_openDepth_loaded env (.on plain) options log' 1 final valid rfl
    (by rw [top]; exact ⟨noMergence, only.noHint, only.noMerged⟩) stored continued.resting.started
    (fun file member => ⟨continued.resting.readable.files file member, full file member⟩)
    continued.resting.replayed
  exact ⟨⟨db, .on plain⟩, ran, loaded.holds.serves continued.resting.readable.whole⟩

end

theorem Installed.hintDir (installed : Installed merged.world.fs data last.fileId hinted)
    (continued : log.Continued env.crc more data log' final) (active : log.active = some last)
    (finished : Finished env.crc 0 limit last.fileId picked merged.world)
    (output : MergeOutput env session merged.world.fs (mergedItems env.crc limit picked))
    (nonempty : mergedItems env.crc limit picked ≠ [])
    (nulFree : ∀ item ∈ mergedItems env.crc limit picked, 0 ∉ item.key)
    (small : last.fileId < 2 ^ 31) :
    HintDir env.crc hinted 0 last.fileId
      ((mergedLog env.crc limit picked).files.filter (·.fileId < last.fileId)) (last :: more)
      (mergedItems env.crc limit picked) := by
  have stored := continued.resting.stored
  rw [continued.files_eq active] at stored
  refine ⟨installed.stored finished.stored stored, ?_, ?_, stored.last_le.2, ?_, ?_, small,
    nonempty, ?_⟩
  · rw [← Option.not_isSome_iff_eq_none, Fs.dir?_isSome_iff, installed.dirs]
    exact Nat.lt_irrefl 1
  · exact fun file member => of_decide_eq_true (mem_filter.mp member).2
  · exact installed.hint.trans output.hints
  · exact installed.marker.trans finished.marker
  · intro item member
    have current := output.current item member
    exact ⟨(output.storable item member).2, current.named, nulFree item member, current.position⟩

section

variable (live : Live env session log keys)

include live

theorem Live.replaced (active : log.active = some last)
    (continued : log.Continued env.crc more data log' final) (limit : Nat) :
    Journal.Replaced Slot.value (fileEntries env.crc log.older)
      ((last.located env.crc).map Located.entry) (fileEntries env.crc more) keys final
      (hintMap (session.mergeItems env log limit)) := by
  have before : fileEntries env.crc log.older ++ (last.located env.crc).map Located.entry =
      log.entries env.crc := by
    rw [Log.entries, Log.records, files_active active, flatMap_append,
      flatMap_singleton, map_append]
  have all : log.entries env.crc ++ fileEntries env.crc more = log'.entries env.crc := by
    rw [Log.entries, Log.entries, Log.records, Log.records, continued.files, flatMap_append,
      map_append]
  refine ⟨?_, ?_, ?_, ?_, ?_, live.hintMap_alike limit⟩
  · rw [before]
    exact live.blocks
  · rw [before, all]
    exact continued.resting.blocks
  · rw [before]
    exact live.holds.replayed
  · rw [before, all]
    exact continued.resting.replayed
  · rw [before]
    intro entry member txn owned
    obtain ⟨found, inside, rfl⟩ := mem_map.mp member
    exact continued.apart found inside txn owned

theorem Live.hinted_serves (active : log.active = some last) (packed : log.Packed env.crc limit)
    (continued : log.Continued env.crc more data log' final)
    (storable : ∀ placed ∈ mergedRecords env.crc limit
      (session.liveRecords env log), placed.2.Storable env.crc)
    {opened : Session} {shown : Log} {state : KeyState} (attached : Attached env opened shown)
    (files : shown.files = (mergedLog env.crc limit (session.liveRecords env log)).files.filter
      (·.fileId < last.fileId) ++ last :: more)
    (ran : Journal.replay ⟨hintMap (session.mergeItems env log limit), fun _ => []⟩
      (fileEntries env.crc (last :: more)) = some state)
    (shows : opened.db.index.Shows state.live) : Serves env opened shown state.live := by
  have records := congrArg (List.flatMap (FileLog.located env.crc)) files
  rw [flatMap_append, ← Log.records] at records
  refine ⟨attached, ?_, shows, ?_⟩
  · intro found member
    rw [records] at member
    rcases mem_append.mp member with below | above
    · refine storable found ?_
      rw [← records_mergedLog]
      obtain ⟨file, inside, here⟩ := mem_flatMap.mp below
      exact mem_flatMap.mpr ⟨file, (mem_filter.mp inside).1, here⟩
    · exact continued.resting.readable.whole found (continued.mem_records active above)
  · intro key slot found
    rw [records]
    rw [fileEntries, flatMap_cons, map_append] at ran
    rcases (live.replaced active continued limit).origin ran found with
      ⟨entry, member, offers⟩ | ⟨hinted, stored, here, offered⟩
    · rw [← map_append, ← flatMap_cons] at member
      obtain ⟨other, inside, rfl⟩ := mem_map.mp member
      have carries := Located.carries_of_offers offers
      exact ⟨other, mem_append_right _ inside, carries.pst, carries.value, carries.kept⟩
    · obtain ⟨placed, inside, carried⟩ := live.hint_below active packed hinted here offered
      exact ⟨placed, mem_append_left _ inside, carried⟩

theorem Live.opensAlike_iff (active : log.active = some last) (packed : log.Packed env.crc limit)
    (continued : log.Continued env.crc more data log' final)
    (storable : ∀ placed ∈ mergedRecords env.crc limit
      (session.liveRecords env log), placed.2.Storable env.crc)
    (dir : HintDir env.crc hinted 0 last.fileId
      ((mergedLog env.crc limit (session.liveRecords env log)).files.filter
        (·.fileId < last.fileId)) (last :: more) (session.mergeItems env log limit))
    (only : DataOnly data plain) (full : ∀ file ∈ log'.files, file.records ≠ [])
    (valid : checkOptions options = .ok ()) (top : options.dirPath.level = 0) :
    OpensAlike env options hinted plain ↔ ∀ key, keys.live key = none →
      (Journal.survivors ((last.located env.crc).map Located.entry)).find?
        (fun action => action.key = key) ≠ some (.delete key) := by
  have replaced := live.replaced active continued limit
  rw [← replaced.isSome_iff]
  have rest : (last.located env.crc).map Located.entry ++ fileEntries env.crc more =
      fileEntries env.crc (last :: more) := by
    rw [fileEntries, fileEntries, flatMap_cons, map_append]
  have loadable := continued.loadable active full
  obtain ⟨front, newest, split⟩ : ∃ front newest, last :: more = front ++ [newest] :=
    ⟨_, _, (dropLast_append_getLast (cons_ne_nil last more)).symm⟩
  obtain ⟨other, opened, serves⟩ := continued.opened only full valid top
  rw [← top, split] at dir
  rw [split] at loadable
  have ran := @run_openDepth_hinted env _ last.fileId _ (.on hinted) options 1 front newest valid
    rfl dir loadable
  rw [← split, ← rest] at ran
  cases replayed : Journal.replay ⟨hintMap (session.mergeItems env log limit), fun _ => []⟩
      ((last.located env.crc).map Located.entry ++ fileEntries env.crc more) with
  | none =>
    rw [replayed] at ran
    obtain ⟨stop, reached, failed⟩ := ran
    refine ⟨fun alike => ?_, fun impossible => by cases impossible⟩
    obtain ⟨session, _, opens, _⟩ := alike
    cases failed.symm.trans opens
  | some state =>
    rw [replayed] at ran
    obtain ⟨db, returned, attached, shows⟩ := ran
    refine ⟨fun _ => rfl, fun _ => ⟨⟨db, .on hinted⟩, other, returned, opened, fun key => ?_⟩⟩
    have shown := live.hinted_serves active packed continued storable attached
      (by rw [Log.files, split, append_assoc]; rfl) (rest ▸ replayed) shows
    exact shown.same_get serves (replaced.live_alike replayed key.cString)

theorem Live.noStaleTombstone_iff (active : log.active = some last) (full : last.records ≠ []) :
    NoStaleTombstone env.crc session last.fileId ↔ ∀ key, keys.live key = none →
      (Journal.survivors ((last.located env.crc).map Located.entry)).find?
        (fun action => action.key = key) ≠ some (.delete key) := by
  have inside := mem_files_active active
  simp only [NoStaleTombstone, live.holds.index, Option.map_eq_none_iff, Fs.fileActions,
    live.resting.stored.fileLog_eq inside full (live.resting.readable.files last inside).storable]

theorem Live.nulFree_item {item : MergedItem} (member : item ∈ session.mergeItems env log limit) :
    0 ∉ item.key := by
  obtain ⟨found, zipped, named, _⟩ := mem_mergedItems member
  obtain ⟨key, txnId, tagged⟩ := live.tagged found (mem_filter.mp (of_mem_zip zipped).1).1
  rw [named, show found.realKey = key from tagged.realKey found.1]
  exact tagged.nulFree

end

/-- Loading from the hint file of a merge and replaying the files from the marked one on shows
what replaying all files shows, unless the marked file has a tombstone for a key that is gone
before it has put that key. No database was opened with a smaller `data_file_size` than the one
before, no key begins with a NUL, the marked id and the offsets have 31 bits, and every write is
whole. -/
theorem hint_load_agrees_iff {world : World} {acts : List Act} {active : DataFile}
    (empty : EmptyDir world)
    (run : Run (Act.GrowingStep env) (0, .closed world) acts (limit, .running session))
    (started : session.db.activeFile = some active)
    (ran : (mergeDb env).run session = (.ok .ok, merged))
    (named : session.db.index.lookup [] = none)
    (bounded : ∀ placed ∈ mergedRecords env.crc session.db.options.dataFileSize
      (session.db.index.liveRecords (session.world.fs.readLog env.crc 0)), placed.1.offset < 2 ^ 31)
    (small : active.fileId < 2 ^ 31) (whole : merged.world.WholeWrites)
    (after : LogAfter env session merged data) (full : NoEmptyDataFile data 0)
    (installed : Installed merged.world.fs data active.fileId hinted)
    (only : DataOnly data plain)
    (valid : checkOptions options = .ok ()) (top : options.dirPath.level = 0) :
    OpensAlike env options hinted plain ↔ NoStaleTombstone env.crc session active.fileId := by
  obtain ⟨log, keys, last, live, packed, opened, same, merges⟩ :=
    merges_of_run empty run started ran
  rw [← same] at small installed ⊢
  obtain ⟨more, log', final, continued⟩ := after.continued live opened merges
  rw [continued.resting.noEmptyDataFile_iff] at full
  cases merges.ended with
  | finished filled some encodable finished =>
    rw [live.top] at finished
    rw [live.readLog filled] at bounded
    have fids : ∀ placed ∈ mergedRecords env.crc session.db.options.dataFileSize
        (session.db.index.liveRecords (log.records env.crc)), placed.1.fid < 2 ^ 32 := by
      intro placed member
      have most := (mergedRecords_fid_le_number member).trans
        (live.mergedLog_number_le opened packed)
      omega
    have output := live.mergeOutput finished named
      (fun placed member => ⟨fids placed member, bounded placed member⟩) whole
    have dir := installed.hintDir continued opened finished output (mergedItems_ne_nil some)
      (fun item member => live.nulFree_item member) small
    rw [live.noStaleTombstone_iff opened (filled last (Log.mem_files_active opened))]
    exact live.opensAlike_iff opened packed continued output.storable_placed dir only full valid
      top

end Compared

theorem hint_load_agrees_one_key :
    let merged := ((mergeDb .reference).run oneKeySession).2.world.fs
    OpensAlike .reference ⟨⟨"db", 0⟩, 64, false, .skipListIndex⟩
      ((oneKeySession.world.fs.put ⟨0, .hintIndex⟩
        (merged.content ⟨getMergenceDirectory 0, .hintIndex⟩)).put ⟨0, .merged⟩
        (merged.content ⟨getMergenceDirectory 0, .merged⟩)) oneKeySession.world.fs := by
  intro merged
  obtain ⟨file, started, zero⟩ := exists_active_oneKeySession
  have finished : ((mergeDb .reference).run oneKeySession).1 = .ok .ok := by decide +kernel
  have installed : Installed merged oneKeySession.world.fs file.fileId
      ((oneKeySession.world.fs.put ⟨0, .hintIndex⟩
        (merged.content ⟨getMergenceDirectory 0, .hintIndex⟩)).put ⟨0, .merged⟩
        (merged.content ⟨getMergenceDirectory 0, .merged⟩)) := by
    rw [zero]
    refine ⟨by decide +kernel, fun other less => absurd less (Nat.not_lt_zero _), fun other _ => ?_,
      by decide +kernel, by decide +kernel⟩
    rw [Fs.content?_put_ne (by simp), Fs.content?_put_ne (by simp)]
  have only : DataOnly oneKeySession.world.fs oneKeySession.world.fs :=
    ⟨by decide +kernel, fun _ => rfl, by decide +kernel, by decide +kernel⟩
  refine (hint_load_agrees_iff ⟨rfl, rfl⟩ growingRun_oneKeySession started
    (Program.run_of_outcome finished) (by decide +kernel) (by decide +kernel) (by omega)
    (by decide +kernel) .now noEmptyDataFile_oneKeySession installed only (by decide) rfl).mpr ?_
  rw [zero]
  have puts : (oneKeySession.world.fs.fileActions .castagnoli 0).all (fun action =>
      match action with
      | .put _ _ => true
      | .delete _ => false) = true := by decide +kernel
  intro key _ found
  cases all_eq_true.mp puts _ (mem_of_find?_eq_some found)

/-- A key is deleted in the file that is active when the merge runs. Its tombstone is replayed
over an index that does not have the key, and `Open` fails. -/
theorem stale_tombstone_fails_load :
    let options : Options := ⟨⟨"db", 0⟩, 15, false, .skipListIndex⟩
    let first := (put .reference (.ofString [97]) (.ofString [49])).run
      ⟨DB.new options, .on ⟨[∅]⟩⟩
    let second := (put .reference (.ofString [98]) (.ofString [50])).run first.2
    let third := (delete .reference (.ofString [97])).run second.2
    let merged := (mergeDb .reference).run third.2
    (openDb .reference options false).run (.on ⟨[∅]⟩) = (.ok (DB.new options), .on ⟨[∅]⟩) ∧
      first.1 = .ok .ok ∧ second.1 = .ok .ok ∧ third.1 = .ok .ok ∧ merged.1 = .ok .ok ∧
      third.2.db.activeFile.map (·.fileId) = some 2 ∧ NoEmptyDataFile third.2.world.fs 0 ∧
      ∃ hinted, Installed merged.2.world.fs third.2.world.fs 2 hinted ∧
        DataOnly third.2.world.fs third.2.world.fs ∧
        ((openDb .reference options false).run (.on hinted)).1.isOk = false ∧
        ((openDb .reference options false).run (.on third.2.world.fs)).1.isOk = true := by
  intro options first second third merged
  let installed : Fs := ((third.2.world.fs.put ⟨0, .data 0⟩
    (merged.2.world.fs.content ⟨getMergenceDirectory 0, .data 0⟩)).remove ⟨0, .data 1⟩)
  let hinted : Fs := (installed.put ⟨0, .hintIndex⟩
    (merged.2.world.fs.content ⟨getMergenceDirectory 0, .hintIndex⟩)).put ⟨0, .merged⟩
      (merged.2.world.fs.content ⟨getMergenceDirectory 0, .merged⟩)
  refine ⟨rfl, by decide +kernel, by decide +kernel, by decide +kernel, by decide +kernel,
    by decide +kernel, by decide +kernel, hinted, ⟨by decide +kernel, ?_, ?_, by decide +kernel,
      by decide +kernel⟩, ⟨by decide +kernel, fun _ => rfl, by decide +kernel, by decide +kernel⟩,
    by decide +kernel, by decide +kernel⟩
  · decide +kernel
  · intro other least
    have first : other ≠ 0 := by omega
    have second : other ≠ 1 := by omega
    rw [Fs.content?_put_ne (by simp), Fs.content?_put_ne (by simp),
      Fs.content?_remove_ne (by simpa using second.symm),
      Fs.content?_put_ne (by simpa using first.symm)]

end Bitdb
