import Bitdb.Utils.Coding
import Mathlib.Algebra.Group.Nat.Defs
import Mathlib.Data.List.Basic

/-! The class `Serializer` (`bitdb/codec/serializer.h`) and its overloads. An overload reads into an
object that already exists, so it is given what the object held before. Reading past the end of the
buffer has no defined value. What was serialized is restored, for every type with an overload, and a
`Codec` carries the proof of it. -/

set_option autoImplicit false

namespace Bitdb

/-- `deserialize_pos_` is the position of the next read. -/
structure Serializer where
  buffer : List Byte
  deserializePos : Nat
  deriving DecidableEq, Repr

namespace Serializer

def empty : Serializer := ⟨[], 0⟩

def ofBuffer (data : List Byte) : Serializer := ⟨data, 0⟩

def insert (serializer : Serializer) (bytes : List Byte) : Serializer :=
  { serializer with buffer := serializer.buffer ++ bytes }

/-- `std::copy` of `size` bytes at the read position, which moves behind them. -/
def copy (serializer : Serializer) (size : Nat) : Option (List Byte × Serializer) :=
  if serializer.deserializePos + size ≤ serializer.buffer.length then
    some ((serializer.buffer.drop serializer.deserializePos).take size,
      { serializer with deserializePos := serializer.deserializePos + size })
  else none

def reading (consumed rest : List Byte) : Serializer := ⟨consumed ++ rest, consumed.length⟩

end Serializer

/-- The object representation of a number of `size` bytes, lowest byte first. -/
def littleEndian : Nat → Nat → List Byte
  | 0, _ => []
  | size + 1, value => UInt8.ofNat value :: littleEndian size (value / 256)

def ofLittleEndian : List Byte → Nat
  | [] => 0
  | byte :: bytes => byte.toNat + 256 * ofLittleEndian bytes

/-- `resize` of a container: it loses its last items, or gets new ones behind them. -/
def resize {α : Type} (fresh : α) (items : List α) (size : Nat) : List α :=
  items.take size ++ List.replicate (size - items.length) fresh

/-- What a container holds after `std::copy` to its beginning. -/
def copyOver {α : Type} (source target : List α) : List α := source ++ target.drop source.length

/-- How objects of one type are written and read. `fresh` is the value-initialised object. -/
structure Overload (α : Type) where
  fresh : α
  serialize : α → Serializer → Serializer
  deserialize : α → Serializer → Option (α × Serializer)

/-- The containers with `is_sequence_container_type_v`. -/
inductive SequenceContainer where
  | vector
  | deque
  | list
  | forwardList
  deriving DecidableEq, Repr

/-- The number of items as a `uint32_t`. A `forward_list` has no method `size`, and its items
are counted. -/
def SequenceContainer.size {α : Type} : SequenceContainer → List α → UInt32
  | .vector, items | .deque, items | .list, items => UInt32.ofNat items.length
  | .forwardList, items => items.foldl (fun size _ => size + 1) 0

namespace Overload

variable {α β : Type}

def arithmetic (size : Nat) : Overload (BitVec (8 * size)) where
  fresh := 0
  serialize value serializer := serializer.insert (littleEndian size value.toNat)
  deserialize _ serializer := do
    let (bytes, serializer) ← serializer.copy size
    return (BitVec.ofNat (8 * size) (ofLittleEndian bytes), serializer)

def numbers (size : Nat) (bits : α → BitVec (8 * size)) (number : BitVec (8 * size) → α) :
    Overload α where
  fresh := number 0
  serialize value := (arithmetic size).serialize (bits value)
  deserialize value serializer := do
    let (read, serializer) ← (arithmetic size).deserialize (bits value) serializer
    return (number read, serializer)

def uint16 : Overload UInt16 := numbers 2 UInt16.toBitVec UInt16.ofBitVec

def uint32 : Overload UInt32 := numbers 4 UInt32.toBitVec UInt32.ofBitVec

def size : Overload UInt64 := numbers 8 UInt64.toBitVec UInt64.ofBitVec

def int32 : Overload Int32 := numbers 4 Int32.toBitVec Int32.ofBitVec

def bool : Overload Bool := numbers 1 (fun value => if value then 1 else 0) (fun bits => bits ≠ 0)

def string : Overload (List Byte) where
  fresh := []
  serialize value serializer :=
    (size.serialize (UInt64.ofNat value.length) serializer).insert value
  deserialize value serializer := do
    let (size, serializer) ← size.deserialize (UInt64.ofNat value.length) serializer
    let value := resize 0 value size.toNat
    let (bytes, serializer) ← serializer.copy size.toNat
    return (copyOver bytes value, serializer)

/-- `std::for_each` over the items of a container that reads each of them. -/
def deserializeItems (item : Overload α) :
    List α → Serializer → Option (List α × Serializer)
  | [], serializer => some ([], serializer)
  | value :: values, serializer => do
      let (value, serializer) ← item.deserialize value serializer
      let (values, serializer) ← deserializeItems item values serializer
      return (value :: values, serializer)

def sequence (container : SequenceContainer) (item : Overload α) : Overload (List α) where
  fresh := []
  serialize values serializer :=
    values.foldl (fun serializer value => item.serialize value serializer)
      (uint32.serialize (container.size values) serializer)
  deserialize values serializer := do
    let (size, serializer) ← uint32.deserialize 0 serializer
    deserializeItems item (resize item.fresh values size.toNat) serializer

def emptyTuple : Overload Unit where
  fresh := ()
  serialize _ serializer := serializer
  deserialize _ serializer := some ((), serializer)

def tuple (first : Overload α) (rest : Overload β) : Overload (α × β) where
  fresh := (first.fresh, rest.fresh)
  serialize value serializer := rest.serialize value.2 (first.serialize value.1 serializer)
  deserialize value serializer := do
    let (head, serializer) ← first.deserialize value.1 serializer
    let (tail, serializer) ← rest.deserialize value.2 serializer
    return ((head, tail), serializer)

/-- What is written for `value`, between any other bytes, is read into a fresh object as
`value`, and nothing else is consumed. -/
def Survives (overload : Overload α) (value : α) : Prop :=
  ∀ before behind : List Byte,
    let written := (overload.serialize value ⟨before, before.length⟩).buffer
    overload.deserialize overload.fresh ⟨written ++ behind, before.length⟩ =
      some (value, ⟨written ++ behind, written.length⟩)

end Overload

def SizedString (value : List Byte) : Prop := value.length < 2 ^ 64

def SizedSequence {α : Type} (bounded : α → Prop) (values : List α) : Prop :=
  values.length < 2 ^ 32 ∧ ∀ value ∈ values, bounded value

/-- The types with an overload. A struct is the list of the members that its `serialize` and
its `deserialize` go through. `std::map` has no `deserialize` that can be instantiated. -/
inductive CodecType where
  | arithmetic (size : Nat)
  | string
  | sequence (container : SequenceContainer) (item : CodecType)
  | emptyTuple
  | tuple (first rest : CodecType)
  | struct (members : CodecType)
  deriving DecidableEq, Repr

namespace CodecType

def Value : CodecType → Type
  | .arithmetic size => BitVec (8 * size)
  | .string => List Byte
  | .sequence _ item => List item.Value
  | .emptyTuple => Unit
  | .tuple first rest => first.Value × rest.Value
  | .struct members => members.Value

def overload : (type : CodecType) → Overload type.Value
  | .arithmetic size => .arithmetic size
  | .string => .string
  | .sequence container item => .sequence container item.overload
  | .emptyTuple => .emptyTuple
  | .tuple first rest => .tuple first.overload rest.overload
  | .struct members => members.overload

def isEmpty : CodecType → Bool
  | .arithmetic size => size = 0
  | .string => false
  | .sequence _ _ => false
  | .emptyTuple => true
  | .tuple first rest => first.isEmpty && rest.isEmpty
  | .struct members => members.isEmpty

/-- The size of a `std::string` is a `size_t`, and each sequence has fewer than 2^32 items. -/
def Bounded : (type : CodecType) → type.Value → Prop
  | .arithmetic _, _ => True
  | .string, value => SizedString value
  | .sequence _ item, values => SizedSequence item.Bounded values
  | .emptyTuple, _ => True
  | .tuple first rest, value => first.Bounded value.1 ∧ rest.Bounded value.2
  | .struct members, value => members.Bounded value

end CodecType

/-- An object of the writer, and what the reader's object of the same type holds before it
is read into. -/
structure CodecObject where
  type : CodecType
  value : type.Value
  target : type.Value

def serializeAll : List CodecObject → Serializer → Serializer
  | [], serializer => serializer
  | object :: objects, serializer =>
    serializeAll objects (object.type.overload.serialize object.value serializer)

def deserializeAll : List CodecObject → Serializer →
    Option (List ((type : CodecType) × type.Value) × Serializer)
  | [], serializer => some ([], serializer)
  | object :: objects, serializer => do
      let (value, serializer) ← object.type.overload.deserialize object.target serializer
      let (values, serializer) ← deserializeAll objects serializer
      return (⟨object.type, value⟩ :: values, serializer)

open List Option Overload Serializer

namespace Serializer

theorem insert_nil (serializer : Serializer) : serializer.insert [] = serializer := by
  rw [insert, append_nil]

theorem insert_insert (serializer : Serializer) (first second : List Byte) :
    (serializer.insert first).insert second = serializer.insert (first ++ second) := by
  simp only [insert, append_assoc]

theorem copy_reading (consumed bytes rest : List Byte) {size : Nat} (length : bytes.length = size) :
    (reading consumed (bytes ++ rest)).copy size =
      some (bytes, reading (consumed ++ bytes) rest) := by
  subst length
  have inside : consumed.length + bytes.length ≤ (consumed ++ (bytes ++ rest)).length := by
    simp only [length_append]
    omega
  rw [copy, reading, if_pos inside, drop_left, take_left]
  simp only [reading, append_assoc, length_append]

theorem copy_end (data : List Byte) (size : Nat) :
    (⟨data, data.length⟩ : Serializer).copy size =
      if size = 0 then some ([], ⟨data, data.length⟩) else none := by
  cases size with
  | zero => simp only [copy, Nat.add_zero, Nat.le_refl, ↓reduceIte, take_zero]
  | succ size => rw [copy, if_neg (by simp), if_neg (Nat.succ_ne_zero size)]

end Serializer

theorem length_littleEndian (size value : Nat) : (littleEndian size value).length = size := by
  induction size generalizing value with
  | zero => rfl
  | succ size ih => rw [littleEndian, length_cons, ih]

theorem ofLittleEndian_littleEndian (size value : Nat) :
    ofLittleEndian (littleEndian size value) = value % 256 ^ size := by
  induction size generalizing value with
  | zero => rw [littleEndian, ofLittleEndian, Nat.pow_zero, Nat.mod_one]
  | succ size ih =>
    have byte : (UInt8.ofNat value).toNat = value % 256 := rfl
    rw [littleEndian, ofLittleEndian, ih, byte, Nat.pow_succ', Nat.mod_mul]

theorem littleEndian_ofLittleEndian (bytes : List Byte) :
    littleEndian bytes.length (ofLittleEndian bytes) = bytes := by
  induction bytes with
  | nil => rfl
  | cons byte bytes ih =>
    have low := byte.toNat_lt
    have quotient : (byte.toNat + 256 * ofLittleEndian bytes) / 256 = ofLittleEndian bytes := by
      omega
    have remainder : UInt8.ofNat (byte.toNat + 256 * ofLittleEndian bytes) = byte := by
      rw [← UInt8.toNat_inj, UInt8.toNat_ofNat']
      omega
    rw [ofLittleEndian, length_cons, littleEndian, quotient, ih, remainder]

theorem ofLittleEndian_lt (bytes : List Byte) : ofLittleEndian bytes < 256 ^ bytes.length := by
  induction bytes with
  | nil => exact Nat.one_pos
  | cons byte bytes ih =>
    have low := byte.toNat_lt
    rw [ofLittleEndian, length_cons, Nat.pow_succ']
    omega

theorem length_resize {α : Type} (fresh : α) (items : List α) (size : Nat) :
    (resize fresh items size).length = size := by
  rw [resize, length_append, length_take, length_replicate]
  omega

theorem eq_of_mem_resize_nil {α : Type} {fresh item : α} {size : Nat}
    (member : item ∈ resize fresh [] size) : item = fresh := by
  rw [resize, take_nil, nil_append] at member
  exact eq_of_mem_replicate member

theorem copyOver_of_length_eq {α : Type} {source target : List α}
    (same : target.length = source.length) : copyOver source target = source := by
  rw [copyOver, ← same, drop_length, append_nil]

theorem SequenceContainer.size_eq {α : Type} (container : SequenceContainer) (items : List α) :
    container.size items = UInt32.ofNat items.length := by
  have counted : ∀ count : UInt32,
      items.foldl (fun size _ => size + 1) count = count + UInt32.ofNat items.length := by
    induction items with
    | nil => intro count; exact (UInt32.add_zero count).symm
    | cons item items ih =>
      intro count
      rw [foldl_cons, ih, length_cons, Nat.add_comm items.length 1,
        UInt32.ofNat_add, UInt32.add_assoc]
      rfl
  cases container with
  | vector | deque | list => rfl
  | forwardList => exact (counted 0).trans (UInt32.zero_add _)

namespace Overload

variable {α β : Type}

/-- `image` is what `serialize` appends for `value`, and `deserialize` into an object that
holds `target` takes exactly these bytes and gives `value` back, whatever stands behind them. -/
structure Restores (overload : Overload α) (target value : α) (image : List Byte) : Prop where
  written : ∀ serializer, overload.serialize value serializer = serializer.insert image
  restored : ∀ consumed rest, overload.deserialize target (.reading consumed (image ++ rest)) =
      some (value, .reading (consumed ++ image) rest)

theorem Restores.survives {overload : Overload α} {value : α} {image : List Byte}
    (restores : overload.Restores overload.fresh value image) : overload.Survives value := by
  intro before behind
  have restored := restores.restored before behind
  simp only [reading] at restored
  simp only [restores.written, Serializer.insert, append_assoc, restored]

theorem arithmetic_restores (size : Nat) (target value : BitVec (8 * size)) :
    (arithmetic size).Restores target value (littleEndian size value.toNat) where
  written _ := rfl
  restored consumed rest := by
    have fits : value.toNat < 256 ^ size := by
      have bound := value.isLt
      rwa [Nat.pow_mul] at bound
    simp only [arithmetic, copy_reading _ _ _ (length_littleEndian size value.toNat),
      bind_eq_bind, bind_some, ofLittleEndian_littleEndian, Nat.mod_eq_of_lt fits,
      BitVec.ofNat_toNat, BitVec.setWidth_eq]
    rfl

theorem numbers_restores {size : Nat} {bits : α → BitVec (8 * size)}
    {number : BitVec (8 * size) → α} {target value : α} (same : number (bits value) = value) :
    (numbers size bits number).Restores target value (littleEndian size (bits value).toNat) where
  written _ := rfl
  restored consumed rest := by
    simp only [numbers, (arithmetic_restores size _ (bits value)).restored, bind_eq_bind,
      bind_some, same]
    rfl

theorem uint16_restores (target value : UInt16) :
    uint16.Restores target value (littleEndian 2 value.toNat) := numbers_restores rfl

theorem uint32_restores (target value : UInt32) :
    uint32.Restores target value (littleEndian 4 value.toNat) := numbers_restores rfl

theorem size_restores (target value : UInt64) :
    size.Restores target value (littleEndian 8 value.toNat) := numbers_restores rfl

def int32Image (value : Int32) : List Byte := littleEndian 4 value.toBitVec.toNat

theorem int32_restores (target value : Int32) :
    int32.Restores target value (int32Image value) := numbers_restores rfl

def boolImage (value : Bool) : List Byte := [if value then 1 else 0]

theorem bool_restores (target value : Bool) : bool.Restores target value (boolImage value) := by
  cases value with
  | false | true => exact numbers_restores rfl

def stringImage (value : List Byte) : List Byte := littleEndian 8 value.length ++ value

theorem string_restores (target : List Byte) {value : List Byte} (sized : SizedString value) :
    string.Restores target value (stringImage value) := by
  have length : (UInt64.ofNat value.length).toNat = value.length := UInt64.toNat_ofNat_of_lt sized
  have prefixed := size_restores (UInt64.ofNat target.length) (UInt64.ofNat value.length)
  rw [length] at prefixed
  constructor
  · intro serializer
    simp only [string, stringImage, prefixed.written, insert_insert]
  · intro consumed rest
    have same : (resize 0 target value.length).length = value.length := length_resize _ _ _
    simp only [string, stringImage, append_assoc, prefixed.restored, bind_eq_bind,
      bind_some, length, copy_reading _ _ _ rfl, copyOver_of_length_eq same]
    rfl

section Sequence

variable {item : Overload α} {image : α → List Byte}

variable {values targets : List α}

theorem foldl_serialize (written : ∀ value ∈ values,
      ∀ serializer, item.serialize value serializer = serializer.insert (image value))
    (serializer : Serializer) :
    values.foldl (fun serializer value => item.serialize value serializer) serializer =
      serializer.insert (values.flatMap image) := by
  induction values generalizing serializer with
  | nil => exact serializer.insert_nil.symm
  | cons value values ih =>
    rw [forall_mem_cons] at written
    rw [foldl_cons, ih written.2, written.1, insert_insert, flatMap_cons]

theorem deserializeItems_restores
    (restores : ∀ value ∈ values, ∀ target ∈ targets, item.Restores target value (image value))
    (same : targets.length = values.length) (consumed rest : List Byte) :
    deserializeItems item targets (.reading consumed (values.flatMap image ++ rest)) =
      some (values, .reading (consumed ++ values.flatMap image) rest) := by
  induction values generalizing targets consumed with
  | nil =>
    obtain rfl : targets = [] := eq_nil_of_length_eq_zero same
    simp only [flatMap_nil, append_nil]
    rfl
  | cons value values ih =>
    cases targets with
    | nil => cases same
    | cons target targets =>
      have head := restores value mem_cons_self target mem_cons_self
      have later := @ih targets (fun value member target held =>
        restores value (mem_cons_of_mem _ member) target (mem_cons_of_mem _ held))
        (Nat.succ.inj same)
      simp only [deserializeItems, flatMap_cons, append_assoc, head.restored,
        bind_eq_bind, bind_some, later]
      rfl

def sequenceImage (image : α → List Byte) (values : List α) : List Byte :=
  littleEndian 4 values.length ++ values.flatMap image

theorem sequence_restores {container : SequenceContainer}
    (restores : ∀ value ∈ values, ∀ target ∈ resize item.fresh targets values.length,
      item.Restores target value (image value)) (fewer : values.length < 2 ^ 32) :
    (sequence container item).Restores targets values (sequenceImage image values) := by
  have length : (UInt32.ofNat values.length).toNat = values.length := UInt32.toNat_ofNat_of_lt fewer
  have prefixed := uint32_restores 0 (UInt32.ofNat values.length)
  rw [length] at prefixed
  have resized := length_resize item.fresh targets values.length
  have written : ∀ value ∈ values, ∀ serializer,
      item.serialize value serializer = serializer.insert (image value) := by
    intro value member
    obtain ⟨target, held⟩ := exists_mem_of_length_pos
      (resized.symm ▸ length_pos_of_mem member)
    exact (restores value member target held).written
  constructor
  · intro serializer
    simp only [sequence, sequenceImage, container.size_eq, prefixed.written,
      foldl_serialize written, insert_insert]
  · intro consumed rest
    simp only [sequence, sequenceImage, append_assoc, prefixed.restored, bind_eq_bind, bind_some,
      length, deserializeItems_restores restores resized]

theorem length_deserializeItems {before after : Serializer}
    (read : deserializeItems item targets before = some (values, after)) :
    values.length = targets.length := by
  induction targets generalizing values before with
  | nil =>
    cases read
    rfl
  | cons target targets ih =>
    simp only [deserializeItems, bind_eq_bind, bind_eq_some_iff] at read
    obtain ⟨head, _, tail, readTail, same⟩ := read
    cases same
    rw [length_cons, length_cons, ih readTail]

theorem length_deserialize_sequence {container : SequenceContainer} {before after : Serializer}
    (read : (sequence container item).deserialize targets before = some (values, after)) :
    values.length < 2 ^ 32 := by
  simp only [sequence, bind_eq_bind, bind_eq_some_iff] at read
  obtain ⟨size, _, readItems⟩ := read
  rw [length_deserializeItems readItems, length_resize]
  exact size.1.toNat_lt

end Sequence

theorem emptyTuple_restores (target value : Unit) : emptyTuple.Restores target value [] where
  written serializer := serializer.insert_nil.symm
  restored consumed rest := by
    rw [nil_append, append_nil]
    rfl

theorem tuple_restores {first : Overload α} {rest : Overload β} {target value : α × β}
    {head tail : List Byte} (firstRestores : first.Restores target.1 value.1 head)
    (restRestores : rest.Restores target.2 value.2 tail) :
    (tuple first rest).Restores target value (head ++ tail) where
  written serializer := by
    simp only [tuple, firstRestores.written, restRestores.written, insert_insert]
  restored consumed behind := by
    simp only [tuple, append_assoc, firstRestores.restored, restRestores.restored,
      bind_eq_bind, bind_some]
    rfl

end Overload

namespace CodecType

def image : (type : CodecType) → type.Value → List Byte
  | .arithmetic size, value => littleEndian size (BitVec.toNat value)
  | .string, value => Overload.stringImage value
  | .sequence _ item, values => Overload.sequenceImage item.image values
  | .emptyTuple, _ => []
  | .tuple first rest, value => first.image value.1 ++ rest.image value.2
  | .struct members, value => members.image value

theorem overload_restores (type : CodecType) (target value : type.Value)
    (bounded : type.Bounded value) : type.overload.Restores target value (type.image value) := by
  induction type with
  | arithmetic size => exact arithmetic_restores size target value
  | string => exact string_restores target bounded
  | sequence container item ih =>
    exact sequence_restores
      (fun value member target _ => ih target value (bounded.2 value member)) bounded.1
  | emptyTuple => exact emptyTuple_restores target value
  | tuple first rest firstIH restIH =>
    exact tuple_restores (firstIH target.1 value.1 bounded.1)
      (restIH target.2 value.2 bounded.2)
  | struct members ih => exact ih target value bounded

theorem deserialize_end (type : CodecType) (target : type.Value) (data : List Byte) :
    (type.isEmpty = true ∧ ∃ value,
      type.overload.deserialize target ⟨data, data.length⟩ = some (value, ⟨data, data.length⟩)) ∨
    (type.isEmpty = false ∧ type.overload.deserialize target ⟨data, data.length⟩ = none) := by
  induction type with
  | arithmetic size =>
    simp only [isEmpty, overload, Overload.arithmetic, copy_end]
    by_cases empty : size = 0
    · rw [if_pos empty]
      exact .inl ⟨decide_eq_true empty, _, rfl⟩
    · rw [if_neg empty]
      exact .inr ⟨decide_eq_false empty, rfl⟩
  | string =>
    simp only [overload, Overload.string, Overload.size, Overload.numbers,
      Overload.arithmetic, copy_end]
    exact .inr ⟨rfl, rfl⟩
  | sequence container item =>
    simp only [overload, Overload.sequence, Overload.uint32, Overload.numbers,
      Overload.arithmetic, copy_end]
    exact .inr ⟨rfl, rfl⟩
  | emptyTuple => exact .inl ⟨rfl, _, rfl⟩
  | tuple first rest firstIH restIH =>
    simp only [isEmpty, overload, Overload.tuple]
    rcases firstIH target.1 with ⟨empty, head, read⟩ | ⟨full, failed⟩
    · rw [read, empty]
      rcases restIH target.2 with ⟨restEmpty, tail, readTail⟩ | ⟨full, failed⟩
      · refine .inl ⟨restEmpty, (head, tail), ?_⟩
        simp only [bind_eq_bind, bind_some, readTail]
        rfl
      · refine .inr ⟨full, ?_⟩
        simp only [bind_eq_bind, bind_some, failed]
        rfl
    · rw [failed, full]
      exact .inr ⟨rfl, rfl⟩
  | struct members ih => exact ih target

end CodecType

section

variable {objects : List CodecObject}
  (bounded : ∀ object ∈ objects, object.type.Bounded object.value)

include bounded

theorem serializeAll_eq_insert (serializer : Serializer) :
    serializeAll objects serializer =
      serializer.insert (objects.flatMap fun object => object.type.image object.value) := by
  induction objects generalizing serializer with
  | nil => exact serializer.insert_nil.symm
  | cons object objects ih =>
    rw [forall_mem_cons] at bounded
    rw [serializeAll, ih bounded.2, (object.type.overload_restores object.target _ bounded.1).written,
      insert_insert, flatMap_cons]

theorem deserializeAll_reading (consumed rest : List Byte) :
    deserializeAll objects (.reading consumed
        (objects.flatMap (fun object => object.type.image object.value) ++ rest)) =
      some (objects.map fun object => ⟨object.type, object.value⟩,
        .reading (consumed ++ objects.flatMap fun object => object.type.image object.value)
          rest) := by
  induction objects generalizing consumed with
  | nil =>
    simp only [flatMap_nil, append_nil]
    rfl
  | cons object objects ih =>
    rw [forall_mem_cons] at bounded
    simp only [deserializeAll, flatMap_cons, append_assoc,
      (object.type.overload_restores object.target _ bounded.1).restored, bind_eq_bind,
      bind_some, ih bounded.2]
    rfl

end

/-- Objects that are written in order come back in order, and the read position ends behind
the bytes that were written. -/
theorem serializer_round_trip (objects : List CodecObject)
    (bounded : ∀ object ∈ objects, object.type.Bounded object.value)
    (before behind : List Byte) :
    let written := (serializeAll objects ⟨before, before.length⟩).buffer
    deserializeAll objects ⟨written ++ behind, before.length⟩ =
      some (objects.map fun object => ⟨object.type, object.value⟩,
        ⟨written ++ behind, written.length⟩) := by
  rw [serializeAll_eq_insert bounded]
  have restored := deserializeAll_reading bounded before behind
  simp only [Serializer.reading] at restored
  simp only [Serializer.insert, append_assoc, restored]

theorem serializer_round_trip_strings :
    let strings : List (List Byte) := [[104], [105, 106]]
    let held : List (List Byte) := [[1, 2, 3]]
    let objects : List CodecObject :=
      [⟨.sequence .vector .string, strings, held⟩, ⟨.arithmetic 4, 7#32, 9#32⟩]
    (∀ object ∈ objects, object.type.Bounded object.value) ∧
      deserializeAll objects ⟨(serializeAll objects .empty).buffer ++ [255], 0⟩ =
        some ([⟨.sequence .vector .string, strings⟩, ⟨.arithmetic 4, 7#32⟩],
          ⟨(serializeAll objects .empty).buffer ++ [255], 27⟩) := by
  intro strings held objects
  have bounded : ∀ object ∈ objects, object.type.Bounded object.value := by
    have sized : SizedSequence SizedString strings := by
      refine ⟨by decide, fun value member => ?_⟩
      simp only [strings, mem_cons, not_mem_nil, or_false] at member
      rcases member with rfl | rfl
      · exact (by decide : 1 < 2 ^ 64)
      · exact (by decide : 2 < 2 ^ 64)
    intro object member
    simp only [objects, mem_cons, not_mem_nil, or_false] at member
    rcases member with rfl | rfl
    · exact sized
    · exact trivial
  exact ⟨bounded, serializer_round_trip objects bounded [] [255]⟩

open Option

/-- How the values of a type are written and read. What was written is read back, whatever
stands behind it. -/
structure Codec (α : Type) where
  serialize : α → List Byte
  deserialize : List Byte → Option (α × List Byte)
  deserialize_serialize : ∀ value rest, deserialize (serialize value ++ rest) = some (value, rest)

namespace Codec

variable {α β : Type}

def uint32 : Codec UInt32 where
  serialize := encodeFixed32
  deserialize bytes := (decodeFixed32 bytes).map fun value => (value, bytes.drop 4)
  deserialize_serialize := by
    intro value rest
    rw [decodeFixed32_encodeFixed32, map_some, ← encodeFixed32_length value, List.drop_left]

/-- An `int32_t` has the bytes of the unsigned number congruent to it. -/
def int32 : Codec Int32 where
  serialize value := uint32.serialize value.toUInt32
  deserialize bytes := (uint32.deserialize bytes).map fun read => (read.1.toInt32, read.2)
  deserialize_serialize := by
    intro value rest
    rw [uint32.deserialize_serialize]
    rfl

def pair (first : Codec α) (second : Codec β) : Codec (α × β) where
  serialize value := first.serialize value.1 ++ second.serialize value.2
  deserialize bytes := do
    let (left, rest) ← first.deserialize bytes
    let (right, rest) ← second.deserialize rest
    return ((left, right), rest)
  deserialize_serialize := by
    intro value rest
    simp only [List.append_assoc, first.deserialize_serialize, second.deserialize_serialize,
      bind_eq_bind, bind_some]
    rfl

def imap (codec : Codec α) (make : α → β) (members : β → α)
    (same : ∀ value, make (members value) = value) : Codec β where
  serialize value := codec.serialize (members value)
  deserialize bytes := (codec.deserialize bytes).map fun read => (make read.1, read.2)
  deserialize_serialize := by
    intro value rest
    rw [codec.deserialize_serialize, map_some, same]

/-- A sequence container: its size as a `uint32_t`, then its items. -/
def serializeAll (codec : Codec α) (values : List α) : List Byte :=
  uint32.serialize (UInt32.ofNat values.length) ++ values.flatMap codec.serialize

def deserializeItems (codec : Codec α) : Nat → List Byte → Option (List α × List Byte)
  | 0, bytes => some ([], bytes)
  | count + 1, bytes => do
      let (value, rest) ← codec.deserialize bytes
      let (values, rest) ← deserializeItems codec count rest
      return (value :: values, rest)

def deserializeAll (codec : Codec α) (bytes : List Byte) : Option (List α × List Byte) := do
  let (size, rest) ← uint32.deserialize bytes
  deserializeItems codec size.toNat rest

theorem deserializeItems_serialize (codec : Codec α) (values : List α) (count : Nat)
    (enough : count ≤ values.length) (rest : List Byte) :
    codec.deserializeItems count (values.flatMap codec.serialize ++ rest) =
      some (values.take count, (values.drop count).flatMap codec.serialize ++ rest) := by
  induction values generalizing count with
  | nil =>
    obtain rfl : count = 0 := Nat.le_zero.mp enough
    rfl
  | cons value values ih =>
    cases count with
    | zero => rfl
    | succ count =>
      have later := ih count (Nat.le_of_succ_le_succ enough)
      rw [deserializeItems, List.flatMap_cons, List.append_assoc, codec.deserialize_serialize]
      simp only [bind_eq_bind, bind_some, later, List.take_succ_cons, List.drop_succ_cons]
      rfl

theorem deserializeAll_serializeAll (codec : Codec α) (values : List α) (rest : List Byte) :
    codec.deserializeAll (codec.serializeAll values ++ rest) =
      some (values.take (values.length % 2 ^ 32),
        (values.drop (values.length % 2 ^ 32)).flatMap codec.serialize ++ rest) := by
  have size : (UInt32.ofNat values.length).toNat = values.length % 2 ^ 32 := rfl
  rw [deserializeAll, serializeAll, List.append_assoc, uint32.deserialize_serialize]
  simp only [bind_eq_bind, bind_some, size]
  exact codec.deserializeItems_serialize values _ (Nat.mod_le _ _) rest

end Codec

end Bitdb
