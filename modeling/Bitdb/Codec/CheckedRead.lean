import Bitdb.Codec.Overload

/-! The overloads of `deserialize` on bytes that nobody has checked. `resize` may throw, which
ends a read before it runs past the end of the buffer. -/

set_option autoImplicit false

namespace Bitdb

open List Overload Serializer

inductive ReadStop where
  | thrown
  | outOfBounds
  deriving DecidableEq, Repr

/-- Which calls of `resize` succeed that let a container grow, by the position in the buffer and
the new size. Within a read each of them has another position. -/
abbrev Growth := Nat → Nat → Bool

/-- A `deserialize`, given what the object held before. -/
abbrev Reader (α : Type) := α → Serializer → Except ReadStop (α × Serializer)

def ReadStop.check {α : Type} : Option α → Except ReadStop α
  | some value => .ok value
  | none => .error .outOfBounds

namespace Serializer

def copyChecked (serializer : Serializer) (size : Nat) :
    Except ReadStop (List Byte × Serializer) :=
  ReadStop.check (serializer.copy size)

def resizeChecked {α : Type} (serializer : Serializer) (grows : Growth) (fresh : α)
    (items : List α) (size : Nat) : Except ReadStop (List α) :=
  if size ≤ items.length ∨ grows serializer.deserializePos size = true then
    .ok (resize fresh items size)
  else .error .thrown

end Serializer

namespace Reader

variable {α β : Type}

def arithmetic (size : Nat) : Reader (BitVec (8 * size)) := fun _ serializer => do
  let (bytes, serializer) ← serializer.copyChecked size
  return (BitVec.ofNat (8 * size) (ofLittleEndian bytes), serializer)

def string (grows : Growth) : Reader (List Byte) := fun value serializer => do
  let (bytes, serializer) ← serializer.copyChecked 8
  let size := ofLittleEndian bytes
  let value ← serializer.resizeChecked grows 0 value size
  let (bytes, serializer) ← serializer.copyChecked size
  return (copyOver bytes value, serializer)

def items (item : Reader α) : Reader (List α)
  | [], serializer => .ok ([], serializer)
  | value :: values, serializer => do
      let (value, serializer) ← item value serializer
      let (values, serializer) ← items item values serializer
      return (value :: values, serializer)

def sequence (grows : Growth) (fresh : α) (item : Reader α) : Reader (List α) :=
  fun values serializer => do
    let (bytes, serializer) ← serializer.copyChecked 4
    let values ← serializer.resizeChecked grows fresh values (ofLittleEndian bytes)
    items item values serializer

def emptyTuple : Reader Unit := fun _ serializer => .ok ((), serializer)

def tuple (first : Reader α) (rest : Reader β) : Reader (α × β) := fun value serializer => do
  let (head, serializer) ← first value.1 serializer
  let (tail, serializer) ← rest value.2 serializer
  return ((head, tail), serializer)

end Reader

def CodecType.reader (grows : Growth) : (type : CodecType) → Reader type.Value
  | .arithmetic size => .arithmetic size
  | .string => .string grows
  | .sequence _ item => .sequence grows item.overload.fresh (item.reader grows)
  | .emptyTuple => .emptyTuple
  | .tuple first rest => .tuple (first.reader grows) (rest.reader grows)
  | .struct members => members.reader grows

def readArguments (grows : Growth) (serializer : Serializer) :
    Option CodecType → Except ReadStop Serializer
  | none => .ok serializer
  | some type => (type.reader grows type.overload.fresh serializer).map Prod.snd

def readRequest (grows : Growth) (params : List Byte → Option CodecType) (buffer : List Byte) :
    Except ReadStop Serializer := do
  let (funcName, serializer) ← Reader.string grows [] (.ofBuffer buffer)
  readArguments grows serializer (params funcName)

namespace Serializer

theorem copyChecked_reading (consumed rest : List Byte) (size : Nat) :
    (reading consumed rest).copyChecked size =
      if size ≤ rest.length then
        .ok (rest.take size, reading (consumed ++ rest.take size) (rest.drop size))
      else .error .outOfBounds := by
  have moved : consumed.length + size ≤ (consumed ++ rest).length ↔ size ≤ rest.length := by
    rw [length_append]
    omega
  rw [copyChecked, copy, reading]
  by_cases inside : size ≤ rest.length
  · rw [if_pos (moved.mpr inside), if_pos inside, drop_left]
    simp only [ReadStop.check, reading, append_assoc, take_append_drop, length_append,
      length_take, Nat.min_eq_left inside]
  · rw [if_neg fun fits => inside (moved.mp fits), if_neg inside]
    rfl

theorem copyChecked_append (consumed bytes rest : List Byte) {size : Nat}
    (length : bytes.length = size) :
    (reading consumed (bytes ++ rest)).copyChecked size =
      .ok (bytes, reading (consumed ++ bytes) rest) := by
  rw [copyChecked, copy_reading _ _ _ length]
  rfl

theorem copyChecked_ok {consumed rest bytes : List Byte} {size : Nat} {after : Serializer}
    (copied : (reading consumed rest).copyChecked size = .ok (bytes, after)) :
    bytes.length = size ∧ ∃ behind, rest = bytes ++ behind ∧
      after = reading (consumed ++ bytes) behind := by
  rw [copyChecked_reading] at copied
  split at copied
  · rename_i inside
    cases copied
    exact ⟨length_take_of_le inside, _, (take_append_drop _ _).symm, rfl⟩
  · cases copied

theorem resizeChecked_ok {α : Type} {serializer : Serializer} {grows : Growth} {fresh : α}
    {items resized : List α} {size : Nat}
    (ran : serializer.resizeChecked grows fresh items size = .ok resized) :
    resized.length = size := by
  rw [resizeChecked] at ran
  split at ran
  · cases ran
    exact length_resize _ _ _
  · cases ran

theorem resizeChecked_cases {α : Type} (serializer : Serializer) (grows : Growth) (fresh : α)
    (items : List α) (size : Nat) :
    (∃ resized, serializer.resizeChecked grows fresh items size = .ok resized ∧
      resized.length = size) ∨
    serializer.resizeChecked grows fresh items size = .error .thrown := by
  rw [resizeChecked]
  split
  · exact .inl ⟨_, rfl, length_resize _ _ _⟩
  · exact .inr rfl

end Serializer

namespace Reader

open Serializer (reading)

variable {α β : Type} {grows : Growth}

/-- The reader gets through the image of each value unless `resize` throws, and what it gets
through is the image of the value it returns. -/
structure Exact (reader : Reader α) (bounded : α → Prop) (image : α → List Byte) : Prop where
  accepts : ∀ target value, bounded value → ∀ consumed rest,
    reader target (reading consumed (image value ++ rest)) =
        .ok (value, reading (consumed ++ image value) rest) ∨
      reader target (reading consumed (image value ++ rest)) = .error .thrown
  parses : ∀ target consumed rest value after,
    reader target (reading consumed rest) = .ok (value, after) →
      bounded value ∧ ∃ behind, rest = image value ++ behind ∧
        after = reading (consumed ++ image value) behind

theorem bind_ok {γ δ : Type} {ran : Except ReadStop γ} {onward : γ → Except ReadStop δ}
    {result : δ} (done : (ran >>= onward) = .ok result) :
    ∃ value, ran = .ok value ∧ onward value = .ok result := by
  cases ran with
  | error stop => cases done
  | ok value => exact ⟨value, rfl, done⟩

theorem arithmetic_exact (size : Nat) :
    (arithmetic size).Exact (fun _ => True) fun value => littleEndian size value.toNat where
  accepts target value _ consumed rest := by
    have fits : value.toNat < 256 ^ size := by
      have bound := value.isLt
      rwa [Nat.pow_mul] at bound
    have length := length_littleEndian size value.toNat
    rw [arithmetic, copyChecked_append _ _ _ length]
    refine .inl ?_
    change Except.ok (BitVec.ofNat (8 * size) (ofLittleEndian _), _) = _
    rw [ofLittleEndian_littleEndian, Nat.mod_eq_of_lt fits, BitVec.ofNat_toNat, BitVec.setWidth_eq]
  parses target consumed rest value after ran := by
    obtain ⟨⟨bytes, middle⟩, copied, done⟩ := bind_ok ran
    obtain ⟨length, behind, split, moved⟩ := copyChecked_ok copied
    cases done
    have same : littleEndian size (BitVec.ofNat (8 * size) (ofLittleEndian bytes)).toNat =
        bytes := by
      have fits := ofLittleEndian_lt bytes
      rw [length] at fits
      rw [BitVec.toNat_ofNat, Nat.pow_mul, Nat.mod_eq_of_lt fits]
      subst length
      exact littleEndian_ofLittleEndian bytes
    exact ⟨trivial, behind, by rw [same, split], by rw [same, moved]⟩

theorem string_exact (grows : Growth) : (string grows).Exact SizedString stringImage where
  accepts target value sized consumed rest := by
    have size : ofLittleEndian (littleEndian 8 value.length) = value.length := by
      rw [ofLittleEndian_littleEndian]
      exact Nat.mod_eq_of_lt sized
    rw [stringImage, append_assoc, string, copyChecked_append _ _ _ (length_littleEndian 8 _)]
    simp only [bind, Except.bind, size]
    rcases resizeChecked_cases
      (reading (consumed ++ littleEndian 8 value.length) (value ++ rest)) grows 0 target
      value.length with ⟨resized, grown, length⟩ | threw
    · rw [grown, copyChecked_append _ _ _ rfl]
      refine .inl ?_
      change Except.ok (copyOver value resized, _) = _
      rw [copyOver_of_length_eq length, append_assoc]
    · rw [threw]
      exact .inr rfl
  parses target consumed rest value after ran := by
    obtain ⟨⟨sizeBytes, middle⟩, copiedSize, ran⟩ := bind_ok ran
    obtain ⟨sizeLength, behind, split, rfl⟩ := copyChecked_ok copiedSize
    obtain ⟨resized, grown, ran⟩ := bind_ok ran
    obtain ⟨⟨bytes, last⟩, copied, done⟩ := bind_ok ran
    obtain ⟨length, behind', split', rfl⟩ := copyChecked_ok copied
    cases done
    have whole : copyOver bytes resized = bytes :=
      copyOver_of_length_eq ((resizeChecked_ok grown).trans length.symm)
    have prefixed : littleEndian 8 bytes.length = sizeBytes := by
      rw [length, ← sizeLength]
      exact littleEndian_ofLittleEndian sizeBytes
    have sized : SizedString bytes := by
      have fits := ofLittleEndian_lt sizeBytes
      rw [sizeLength] at fits
      rw [SizedString, length]
      exact fits
    rw [whole]
    refine ⟨sized, behind', ?_, ?_⟩
    · rw [stringImage, prefixed, split, split', append_assoc]
    · rw [stringImage, prefixed, append_assoc]

section Sequence

variable {item : Reader α} {bounded : α → Prop} {image : α → List Byte}

theorem items_accepts (exactly : item.Exact bounded image) {targets values : List α}
    (fitting : ∀ value ∈ values, bounded value) (same : targets.length = values.length)
    (consumed rest : List Byte) :
    items item targets (reading consumed (values.flatMap image ++ rest)) =
        .ok (values, reading (consumed ++ values.flatMap image) rest) ∨
      items item targets (reading consumed (values.flatMap image ++ rest)) = .error .thrown := by
  induction values generalizing targets consumed with
  | nil =>
    obtain rfl : targets = [] := eq_nil_of_length_eq_zero same
    rw [flatMap_nil, append_nil]
    exact .inl rfl
  | cons value values ih =>
    cases targets with
    | nil => cases same
    | cons target targets =>
      rw [forall_mem_cons] at fitting
      rw [flatMap_cons, append_assoc, items]
      rcases exactly.accepts target value fitting.1 consumed (values.flatMap image ++ rest)
        with read | threw
      · rw [read]
        rcases ih fitting.2 (Nat.succ.inj same) (consumed ++ image value) with later | threw
        · simp only [bind, Except.bind, later, append_assoc]
          exact .inl rfl
        · simp only [bind, Except.bind, threw]
          exact .inr trivial
      · rw [threw]
        exact .inr rfl

theorem items_parses (exactly : item.Exact bounded image) {targets values : List α}
    {consumed rest : List Byte} {after : Serializer}
    (ran : items item targets (reading consumed rest) = .ok (values, after)) :
    values.length = targets.length ∧ (∀ value ∈ values, bounded value) ∧
      ∃ behind, rest = values.flatMap image ++ behind ∧
        after = reading (consumed ++ values.flatMap image) behind := by
  induction targets generalizing values consumed rest with
  | nil =>
    cases ran
    exact ⟨rfl, by rintro _ ⟨⟩, rest, rfl, by rw [flatMap_nil, append_nil]⟩
  | cons target targets ih =>
    obtain ⟨⟨value, middle⟩, read, ran⟩ := bind_ok ran
    obtain ⟨fitting, behind, split, rfl⟩ := exactly.parses _ _ _ _ _ read
    obtain ⟨⟨others, last⟩, later, done⟩ := bind_ok ran
    cases done
    obtain ⟨length, others, behind', split', moved⟩ := ih later
    refine ⟨congrArg (· + 1) length, forall_mem_cons.mpr ⟨fitting, others⟩, behind', ?_, ?_⟩
    · rw [flatMap_cons, split, split', append_assoc]
    · rw [flatMap_cons, moved, append_assoc]

theorem sequence_exact (fresh : α) (exactly : item.Exact bounded image) :
    (sequence grows fresh item).Exact (SizedSequence bounded) (sequenceImage image) where
  accepts targets values sized consumed rest := by
    have size : ofLittleEndian (littleEndian 4 values.length) = values.length := by
      rw [ofLittleEndian_littleEndian]
      exact Nat.mod_eq_of_lt sized.1
    rw [sequenceImage, append_assoc, sequence, copyChecked_append _ _ _ (length_littleEndian 4 _)]
    simp only [bind, Except.bind, size]
    rcases resizeChecked_cases
      (reading (consumed ++ littleEndian 4 values.length) (values.flatMap image ++ rest)) grows
      fresh targets values.length with ⟨resized, grown, length⟩ | threw
    · rw [grown]
      simp only [← append_assoc consumed]
      exact items_accepts exactly sized.2 length _ rest
    · rw [threw]
      exact .inr rfl
  parses targets consumed rest values after ran := by
    obtain ⟨⟨sizeBytes, middle⟩, copiedSize, ran⟩ := bind_ok ran
    obtain ⟨sizeLength, behind, split, rfl⟩ := copyChecked_ok copiedSize
    obtain ⟨resized, grown, ran⟩ := bind_ok ran
    obtain ⟨length, fitting, behind', split', moved⟩ := items_parses exactly ran
    rw [resizeChecked_ok grown] at length
    have prefixed : littleEndian 4 values.length = sizeBytes := by
      rw [length, ← sizeLength]
      exact littleEndian_ofLittleEndian sizeBytes
    have fewer : values.length < 2 ^ 32 := by
      have fits := ofLittleEndian_lt sizeBytes
      rw [sizeLength] at fits
      rw [length]
      exact fits
    refine ⟨⟨fewer, fitting⟩, behind', ?_, ?_⟩
    · rw [sequenceImage, prefixed, split, split', append_assoc]
    · rw [sequenceImage, prefixed, moved, append_assoc]

end Sequence

theorem emptyTuple_exact : emptyTuple.Exact (fun _ => True) fun _ => [] where
  accepts _ _ _ consumed rest := by
    rw [append_nil, nil_append]
    exact .inl rfl
  parses _ consumed rest _ _ ran := by
    cases ran
    exact ⟨trivial, rest, rfl, by rw [append_nil]⟩

theorem tuple_exact {first : Reader α} {rest : Reader β} {bounded : α → Prop}
    {image : α → List Byte} {restBounded : β → Prop} {restImage : β → List Byte}
    (firstExact : first.Exact bounded image) (restExact : rest.Exact restBounded restImage) :
    (tuple first rest).Exact (fun value => bounded value.1 ∧ restBounded value.2)
      fun value => image value.1 ++ restImage value.2 where
  accepts target value fitting consumed behind := by
    rw [append_assoc, tuple]
    rcases firstExact.accepts target.1 value.1 fitting.1 consumed (restImage value.2 ++ behind)
      with read | threw
    · rw [read]
      rcases restExact.accepts target.2 value.2 fitting.2 (consumed ++ image value.1) behind
        with later | threw
      · simp only [bind, Except.bind, later, append_assoc]
        exact .inl rfl
      · simp only [bind, Except.bind, threw]
        exact .inr trivial
    · rw [threw]
      exact .inr rfl
  parses target consumed bytes value after ran := by
    obtain ⟨⟨head, middle⟩, read, ran⟩ := bind_ok ran
    obtain ⟨fitting, behind, split, rfl⟩ := firstExact.parses _ _ _ _ _ read
    obtain ⟨⟨tail, last⟩, later, done⟩ := bind_ok ran
    cases done
    obtain ⟨restFitting, behind', split', moved⟩ := restExact.parses _ _ _ _ _ later
    refine ⟨⟨fitting, restFitting⟩, behind', ?_, ?_⟩
    · rw [split, split', append_assoc]
    · rw [moved, append_assoc]

end Reader

namespace CodecType

variable {grows : Growth}

theorem reader_exact (grows : Growth) (type : CodecType) :
    (type.reader grows).Exact type.Bounded type.image := by
  induction type with
  | arithmetic size => exact Reader.arithmetic_exact size
  | string => exact Reader.string_exact grows
  | sequence container item ih => exact Reader.sequence_exact _ ih
  | emptyTuple => exact Reader.emptyTuple_exact
  | tuple first rest firstIH restIH => exact Reader.tuple_exact firstIH restIH
  | struct members ih => exact ih

def Begins (type : CodecType) (bytes : List Byte) : Prop :=
  ∃ value behind, type.Bounded value ∧ bytes = type.image value ++ behind

end CodecType

theorem Reader.Exact.in_bounds_iff {α : Type} {reader : Reader α} {bounded : α → Prop}
    {image : α → List Byte} (exactly : reader.Exact bounded image) (target : α)
    (consumed rest : List Byte) :
    reader target (.reading consumed rest) ≠ .error .outOfBounds ↔
      reader target (.reading consumed rest) = .error .thrown ∨
        ∃ value behind, bounded value ∧ rest = image value ++ behind := by
  constructor
  · intro inside
    cases ran : reader target (.reading consumed rest) with
    | ok read =>
      obtain ⟨fitting, behind, split, -⟩ := exactly.parses _ _ _ _ _ ran
      exact .inr ⟨_, behind, fitting, split⟩
    | error stop =>
      cases stop with
      | thrown => exact .inl rfl
      | outOfBounds => exact absurd ran inside
  · rintro (threw | ⟨value, behind, fitting, rfl⟩)
    · rw [threw]
      simp
    · rcases exactly.accepts target value fitting consumed behind with read | threw
      · rw [read]
        simp
      · rw [threw]
        simp

section Memory

def Overload.Checked {α : Type} (overload : Overload α) (reader : Reader α) : Prop :=
  ∀ target serializer, reader target serializer =
    ReadStop.check (overload.deserialize target serializer)

variable {α β : Type}

theorem resizeChecked_eq (serializer : Serializer) (fresh : α) (items : List α) (size : Nat) :
    serializer.resizeChecked (fun _ _ => true) fresh items size = .ok (resize fresh items size) :=
  if_pos (.inr rfl)

theorem length_copy {serializer after : Serializer} {size : Nat} {bytes : List Byte}
    (copied : serializer.copy size = some (bytes, after)) : bytes.length = size := by
  rw [copy] at copied
  split at copied
  · rename_i inside
    cases copied
    rw [length_take, length_drop]
    omega
  · cases copied

theorem toNat_ofLittleEndian {bytes : List Byte} {size : Nat} (length : bytes.length = size) :
    (BitVec.ofNat (8 * size) (ofLittleEndian bytes)).toNat = ofLittleEndian bytes := by
  have fits := ofLittleEndian_lt bytes
  rw [length] at fits
  rw [BitVec.toNat_ofNat, Nat.pow_mul]
  exact Nat.mod_eq_of_lt fits

theorem arithmetic_checked (size : Nat) : (arithmetic size).Checked (.arithmetic size) := by
  intro target serializer
  simp only [Reader.arithmetic, arithmetic, copyChecked]
  cases serializer.copy size with
  | none | some => rfl

theorem string_checked : string.Checked (.string fun _ _ => true) := by
  intro target serializer
  simp only [Reader.string, string, size, numbers, arithmetic, copyChecked, resizeChecked_eq]
  cases copied : serializer.copy 8 with
  | none => rfl
  | some read =>
    have size : (UInt64.ofBitVec (BitVec.ofNat (8 * 8) (ofLittleEndian read.1))).toNat =
        ofLittleEndian read.1 := toNat_ofLittleEndian (length_copy copied)
    simp only [ReadStop.check, bind, Except.bind, Option.bind, pure, size]
    cases read.2.copy (ofLittleEndian read.1) with
    | none | some => rfl

variable {reader : Reader α}

theorem items_checked {item : Overload α} (checked : item.Checked reader) (targets : List α)
    (serializer : Serializer) :
    Reader.items reader targets serializer =
      ReadStop.check (deserializeItems item targets serializer) := by
  induction targets generalizing serializer with
  | nil => rfl
  | cons target targets ih =>
    rw [Reader.items, deserializeItems, checked]
    cases item.deserialize target serializer with
    | none => rfl
    | some read =>
      simp only [ReadStop.check, bind, Except.bind, Option.bind, pure, ih]
      cases deserializeItems item targets read.2 with
      | none | some => rfl

theorem sequence_checked (container : SequenceContainer) {item : Overload α}
    (checked : item.Checked reader) :
    (Overload.sequence container item).Checked
      (.sequence (fun _ _ => true) item.fresh reader) := by
  intro targets serializer
  simp only [Reader.sequence, Overload.sequence, uint32, numbers,
    arithmetic, copyChecked, resizeChecked_eq, items_checked checked]
  cases copied : serializer.copy 4 with
  | none => rfl
  | some read =>
    have size : (UInt32.ofBitVec (BitVec.ofNat (8 * 4) (ofLittleEndian read.1))).toNat =
        ofLittleEndian read.1 := toNat_ofLittleEndian (length_copy copied)
    simp only [ReadStop.check, bind, Except.bind, Option.bind, pure, size]

theorem tuple_checked {first : Overload α} {rest : Overload β} {restReader : Reader β}
    (checked : first.Checked reader) (restChecked : rest.Checked restReader) :
    (tuple first rest).Checked (.tuple reader restReader) := by
  intro target serializer
  simp only [Reader.tuple, tuple, checked target.1]
  cases first.deserialize target.1 serializer with
  | none => rfl
  | some read =>
    simp only [ReadStop.check, bind, Except.bind, Option.bind, pure, restChecked target.2]
    cases rest.deserialize target.2 read.2 with
    | none | some => rfl

theorem CodecType.overload_checked (type : CodecType) :
    type.overload.Checked (type.reader fun _ _ => true) := by
  induction type with
  | arithmetic size => exact arithmetic_checked size
  | string => exact string_checked
  | sequence container item ih => exact sequence_checked container ih
  | emptyTuple => exact fun _ _ => rfl
  | tuple first rest firstIH restIH => exact tuple_checked firstIH restIH
  | struct members ih => exact ih

end Memory

end Bitdb
