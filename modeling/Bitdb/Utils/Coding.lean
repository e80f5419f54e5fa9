import Mathlib.Logic.Basic
import Mathlib.Tactic.Ring

/-! Variable-length and fixed-width integer coding (`bitdb/utils/coding.h` and `coding.cpp`).
Buffers are lists of bytes that begin at the pointer passed in. A decoder returns `none` where the
C++ expression has no defined value. Round trips of the integer codings. Or-ing in the next group of
a varint is an addition, because the groups occupy disjoint bits. -/

set_option autoImplicit false

namespace Bitdb

abbrev Byte := UInt8

def maxVarint32Len : Nat := 4

def maxVarint64Len : Nat := 8

/-- The loop shared by `EncodeVarint32` and `EncodeVarint64`: seven bits per byte,
low group first, the high bit set on every byte but the last. -/
def encodeVarintLoop : Nat → Nat → List Byte
  | 0, _ => []
  | fuel + 1, value =>
    if 0x80 ≤ value then
      UInt8.ofNat (value ||| 0x80) :: encodeVarintLoop fuel (value >>> 7)
    else [UInt8.ofNat value]

def encodeVarint32 (value : UInt32) : List Byte := encodeVarintLoop 5 value.toNat

def encodeVarint64 (value : UInt64) : List Byte := encodeVarintLoop 10 value.toNat

/-- The loop shared by `DecodeVarint32` and `DecodeVarint64`. Both shift a byte that
was promoted to a 32-bit `int`; `widen` is the conversion of that `int` to the type
of the accumulator. -/
def decodeVarintLoop {ω : Type} [OrOp ω] (widen : UInt32 → ω) (result : ω)
    (bitsize : Nat) : List Byte → Option (ω × Nat)
  | [] => none
  | byte :: rest =>
    if 32 ≤ bitsize then none
    else if byte &&& 0x80 ≠ 0 then
      (decodeVarintLoop widen (result ||| widen ((byte ^^^ 0x80).toUInt32 <<< UInt32.ofNat bitsize))
        (bitsize + 7) rest).map fun (value, length) => (value, length + 1)
    else some (result ||| widen (byte.toUInt32 <<< UInt32.ofNat bitsize), 1)

def decodeVarint32 (source : List Byte) : Option (UInt32 × Nat) :=
  decodeVarintLoop id 0 0 source

/-- The shifted `int` is sign-extended before it is or-ed into the 64-bit result. -/
def decodeVarint64 (source : List Byte) : Option (UInt64 × Nat) :=
  decodeVarintLoop (fun shifted => shifted.toInt32.toInt64.toUInt64) 0 0 source

/-- Little-endian image of a 32-bit value. -/
def encodeFixed32 (value : UInt32) : List Byte :=
  [value.toUInt8, (value >>> 8).toUInt8, (value >>> 16).toUInt8, (value >>> 24).toUInt8]

def decodeFixed32 : List Byte → Option UInt32
  | byte0 :: byte1 :: byte2 :: byte3 :: _ =>
    some (byte0.toUInt32 ||| byte1.toUInt32 <<< 8 ||| byte2.toUInt32 <<< 16 |||
      byte3.toUInt32 <<< 24)
  | _ => none

open List Option

private theorem or_high_bit_mod (value : Nat) : (value ||| 0x80) % 256 = value % 128 + 128 := by
  have small : ∀ low : Fin 256, low.val ||| 0x80 = low.val % 128 + 128 := by
    decide +kernel
  have split : (value ||| 0x80) % 2 ^ 8 = value % 2 ^ 8 ||| 0x80 % 2 ^ 8 := Nat.or_mod_two_pow
  have low : value % 256 ||| 0x80 = value % 256 % 128 + 128 :=
    small ⟨value % 256, Nat.mod_lt _ (by decide)⟩
  simp only [Nat.reducePow, Nat.reduceMod] at split
  rw [split, low]
  omega

private theorem continuation_byte (value : Nat) :
    UInt8.ofNat (value ||| 0x80) = UInt8.ofNat (value % 128 + 128) := by
  apply UInt8.toNat_inj.mp
  rw [UInt8.toNat_ofNat', UInt8.toNat_ofNat']
  have merged := or_high_bit_mod value
  simp only [Nat.reducePow]
  omega

private theorem continuation_byte_flag (value : Nat) :
    UInt8.ofNat (value ||| 0x80) &&& 0x80 ≠ 0 := by
  have small : ∀ low : Fin 128, UInt8.ofNat (low.val + 128) &&& 0x80 ≠ 0 := by decide
  rw [continuation_byte]
  exact small ⟨value % 128, Nat.mod_lt _ (by decide)⟩

private theorem continuation_byte_payload (value : Nat) :
    (UInt8.ofNat (value ||| 0x80) ^^^ 0x80).toUInt32 = UInt32.ofNat (value % 128) := by
  have small : ∀ low : Fin 128,
      (UInt8.ofNat (low.val + 128) ^^^ 0x80).toUInt32 = UInt32.ofNat low.val := by decide
  rw [continuation_byte]
  exact small ⟨value % 128, Nat.mod_lt _ (by decide)⟩

private theorem last_byte_flag {value : Nat} (small : value < 128) :
    UInt8.ofNat value &&& 0x80 = 0 := by
  have all : ∀ low : Fin 128, UInt8.ofNat low.val &&& 0x80 = 0 := by decide
  exact all ⟨value, small⟩

private theorem last_byte_payload {value : Nat} (small : value < 128) :
    (UInt8.ofNat value).toUInt32 = UInt32.ofNat value := by
  have all : ∀ low : Fin 128, (UInt8.ofNat low.val).toUInt32 = UInt32.ofNat low.val := by
    decide
  exact all ⟨value, small⟩

variable {fuel groups : Nat}

private theorem encodeVarintLoop_ne_nil {value : Nat} (positive : 0 < fuel) :
    encodeVarintLoop fuel value ≠ [] := by
  cases fuel with
  | zero => omega
  | succ fuel =>
    rw [encodeVarintLoop]
    split <;> simp

private theorem shiftRight_lt_iff {value : Nat} :
    value >>> 7 < 128 ^ groups ↔ value < 128 ^ (groups + 1) := by
  rw [Nat.shiftRight_eq_div_pow, Nat.div_lt_iff_lt_mul (by decide), Nat.pow_succ 128]

private theorem groups_pos {value : Nat} (bounded : value < 128 ^ (groups + 1))
    (more : 0x80 ≤ value) : 0 < groups := by
  rcases Nat.eq_zero_or_pos groups with rfl | positive
  · omega
  · exact positive

theorem encodeVarintLoop_length_le {value : Nat} (bounded : value < 128 ^ groups)
    (positive : 0 < groups) : (encodeVarintLoop fuel value).length ≤ groups := by
  induction groups generalizing fuel value with
  | zero => omega
  | succ groups ih =>
    cases fuel with
    | zero => simp [encodeVarintLoop]
    | succ fuel =>
      rw [encodeVarintLoop]
      by_cases more : 0x80 ≤ value
      · have rest := shiftRight_lt_iff.mpr bounded
        simpa [more] using ih rest (groups_pos bounded more)
      · simp [more]

theorem encodeVarintLoop_lt_of_length {value : Nat} (enough : value < 128 ^ fuel)
    (length : (encodeVarintLoop fuel value).length ≤ groups) : value < 128 ^ groups := by
  induction groups generalizing fuel value with
  | zero =>
    cases fuel with
    | zero => simpa using enough
    | succ fuel =>
      have written := @encodeVarintLoop_ne_nil (fuel + 1) value (Nat.succ_pos fuel)
      exact absurd (length_eq_zero_iff.mp (Nat.le_zero.mp length)) written
  | succ groups ih =>
    cases fuel with
    | zero =>
      have positive : 0 < 128 ^ (groups + 1) := Nat.pow_pos (by decide)
      rw [Nat.pow_zero] at enough
      omega
    | succ fuel =>
      rw [encodeVarintLoop] at length
      by_cases more : 0x80 ≤ value
      · rw [if_pos more, length_cons] at length
        exact shiftRight_lt_iff.mp
          (ih (shiftRight_lt_iff.mpr enough) (Nat.le_of_succ_le_succ length))
      · have room : 128 ^ 1 ≤ 128 ^ (groups + 1) :=
          Nat.pow_le_pow_right (by decide) (by omega)
        omega

theorem encodeVarintLoop_flags {value : Nat} (enough : value < 128 ^ fuel) (positive : 0 < fuel) :
    ∃ front last, encodeVarintLoop fuel value = front ++ [last] ∧
      (∀ byte ∈ front, byte &&& 0x80 ≠ 0) ∧ last &&& 0x80 = 0 := by
  induction fuel generalizing value with
  | zero => omega
  | succ fuel ih =>
    rw [encodeVarintLoop]
    by_cases more : 0x80 ≤ value
    · obtain ⟨front, last, split, flagged, ended⟩ :=
        ih (shiftRight_lt_iff.mpr enough) (groups_pos enough more)
      refine ⟨UInt8.ofNat (value ||| 0x80) :: front, last, ?_, ?_, ended⟩
      · rw [if_pos more, split, cons_append]
      · exact forall_mem_cons.mpr ⟨continuation_byte_flag value, flagged⟩
    · refine ⟨[], UInt8.ofNat value, if_neg more, ?_, last_byte_flag (Nat.lt_of_not_le more)⟩
      simp

theorem encodeVarint32_length_le_iff (value : UInt32) (positive : 0 < groups) :
    (encodeVarint32 value).length ≤ groups ↔ value.toNat < 128 ^ groups :=
  ⟨encodeVarintLoop_lt_of_length (by have := value.toNat_lt; omega),
    fun bounded => encodeVarintLoop_length_le bounded positive⟩

theorem encodeVarint64_length_le_iff (value : UInt64) (positive : 0 < groups) :
    (encodeVarint64 value).length ≤ groups ↔ value.toNat < 128 ^ groups :=
  ⟨encodeVarintLoop_lt_of_length (by have := value.toNat_lt; omega),
    fun bounded => encodeVarintLoop_length_le bounded positive⟩

theorem encodeVarintLoop_length_mono (fuel : Nat) {value other : Nat} (less : value ≤ other) :
    (encodeVarintLoop fuel value).length ≤ (encodeVarintLoop fuel other).length := by
  induction fuel generalizing value other with
  | zero => exact Nat.le_refl _
  | succ fuel ih =>
    rw [encodeVarintLoop, encodeVarintLoop]
    by_cases more : 0x80 ≤ value
    · have moreOther : 0x80 ≤ other := Nat.le_trans more less
      have shifted : value >>> 7 ≤ other >>> 7 := by
        rw [Nat.shiftRight_eq_div_pow, Nat.shiftRight_eq_div_pow]
        exact Nat.div_le_div_right less
      simpa [more, moreOther] using ih shifted
    · rw [if_neg more]
      split <;> simp

theorem encodeVarint32_length_mono {value other : UInt32} (less : value.toNat ≤ other.toNat) :
    (encodeVarint32 value).length ≤ (encodeVarint32 other).length :=
  encodeVarintLoop_length_mono 5 less

theorem encodeVarint64_length_mono {value other : UInt64} (less : value.toNat ≤ other.toNat) :
    (encodeVarint64 value).length ≤ (encodeVarint64 other).length :=
  encodeVarintLoop_length_mono 10 less

theorem encodeVarint32_length_le (value : UInt32) : (encodeVarint32 value).length ≤ 5 :=
  encodeVarintLoop_length_le (by have := value.toNat_lt; omega) (by decide)

theorem encodeVarint32_length_pos (value : UInt32) : 0 < (encodeVarint32 value).length :=
  length_pos_iff.mpr (encodeVarintLoop_ne_nil (by decide))

theorem encodeVarint64_length_pos (value : UInt64) : 0 < (encodeVarint64 value).length :=
  length_pos_iff.mpr (encodeVarintLoop_ne_nil (by decide))

section Decode

variable {ω : Type} [OrOp ω] (widen : UInt32 → ω) (toNat : ω → Nat) (width : Nat)

theorem decodeVarintLoop_encode (widthBound : width ≤ 32)
    (merge : ∀ (result : ω) (group bitsize : Nat), toNat result < 2 ^ bitsize →
      group * 2 ^ bitsize < 2 ^ width → bitsize < 32 →
      toNat (result ||| widen (UInt32.ofNat group <<< UInt32.ofNat bitsize)) =
        toNat result + group * 2 ^ bitsize)
    (fuel : Nat) : ∀ (value bitsize : Nat) (result : ω) (suffix : List Byte),
      0 < fuel → value < 128 ^ fuel → bitsize < 32 → value * 2 ^ bitsize < 2 ^ width →
      toNat result < 2 ^ bitsize →
      ∃ decoded, decodeVarintLoop widen result bitsize
          (encodeVarintLoop fuel value ++ suffix) =
            some (decoded, (encodeVarintLoop fuel value).length) ∧
        toNat decoded = toNat result + value * 2 ^ bitsize := by
  induction fuel with
  | zero => intro value bitsize result suffix positive; omega
  | succ fuel ih =>
    intro value bitsize result suffix _ enough shift fits low
    have notWide : ¬ 32 ≤ bitsize := by omega
    rw [encodeVarintLoop]
    by_cases more : 0x80 ≤ value
    · have scaled : value % 128 * 2 ^ bitsize + value / 128 * 2 ^ (bitsize + 7) =
          value * 2 ^ bitsize := by
        have parts := Nat.mod_add_div value 128
        calc value % 128 * 2 ^ bitsize + value / 128 * 2 ^ (bitsize + 7)
            = (value % 128 + 128 * (value / 128)) * 2 ^ bitsize := by ring
          _ = value * 2 ^ bitsize := by rw [parts]
      have restFuel : value / 128 < 128 ^ fuel := by
        rw [Nat.div_lt_iff_lt_mul (by decide)]
        simpa [Nat.pow_succ] using enough
      have fuelPositive : 0 < fuel := by
        rcases Nat.eq_zero_or_pos fuel with rfl | positive
        · simp at restFuel
          omega
        · exact positive
      have restShift : bitsize + 7 < 32 := by
        by_contra wide
        have room : 2 ^ width ≤ 2 ^ (bitsize + 7) := Nat.pow_le_pow_right (by decide) (by omega)
        have group : 1 * 2 ^ (bitsize + 7) ≤ value / 128 * 2 ^ (bitsize + 7) :=
          Nat.mul_le_mul_right _ (by omega)
        omega
      have merged := merge result (value % 128) bitsize low (by omega) shift
      have groupBound : value % 128 * 2 ^ bitsize ≤ 127 * 2 ^ bitsize :=
        Nat.mul_le_mul_right _ (by omega)
      have nextLow : toNat (result ||| widen
          (UInt32.ofNat (value % 128) <<< UInt32.ofNat bitsize)) < 2 ^ (bitsize + 7) := by
        rw [merged, Nat.pow_add]
        omega
      obtain ⟨decoded, ran, total⟩ := ih (value / 128) (bitsize + 7) _ suffix
        fuelPositive restFuel restShift (by omega) nextLow
      refine ⟨decoded, ?_, ?_⟩
      · simp only [more, ↓reduceIte, cons_append, decodeVarintLoop, notWide, continuation_byte_flag,
          continuation_byte_payload, ne_eq, not_false_eq_true, Nat.shiftRight_eq_div_pow,
          Nat.reducePow, ran, map_some, length_cons]
      · rw [total, merged]
        omega
    · have small : value < 128 := by omega
      have merged := merge result value bitsize low fits shift
      refine ⟨_, ?_, merged⟩
      simp only [more, ↓reduceIte, cons_append, nil_append, decodeVarintLoop,
        notWide, last_byte_flag small, last_byte_payload small, ne_eq, not_true_eq_false,
        length_cons, length_nil]

end Decode

private theorem shifted_group_toNat {group bitsize : Nat} (fits : group * 2 ^ bitsize < 2 ^ 32)
    (shift : bitsize < 32) :
    (UInt32.ofNat group <<< UInt32.ofNat bitsize).toNat = group * 2 ^ bitsize := by
  have groupSmall : group < 2 ^ 32 :=
    Nat.lt_of_le_of_lt (Nat.le_mul_of_pos_right _ (Nat.two_pow_pos _)) fits
  rw [UInt32.toNat_shiftLeft, UInt32.toNat_ofNat', UInt32.toNat_ofNat',
    Nat.mod_eq_of_lt groupSmall, Nat.mod_eq_of_lt (show bitsize < 2 ^ 32 by omega),
    Nat.mod_eq_of_lt shift, Nat.shiftLeft_eq, Nat.mod_eq_of_lt fits]

private theorem or_group {low group bitsize : Nat} (disjoint : low < 2 ^ bitsize) :
    low ||| group * 2 ^ bitsize = low + group * 2 ^ bitsize := by
  rw [Nat.or_comm, Nat.mul_comm group, ← Nat.two_pow_add_eq_or_of_lt disjoint]
  omega

theorem decodeVarint32_encodeVarint32 (value : UInt32) (suffix : List Byte) :
    decodeVarint32 (encodeVarint32 value ++ suffix) =
      some (value, (encodeVarint32 value).length) := by
  have bound := value.toNat_lt
  obtain ⟨decoded, ran, total⟩ := decodeVarintLoop_encode id UInt32.toNat 32
    (Nat.le_refl _)
    (by
      intro result group bitsize low fits shift
      rw [UInt32.toNat_or, id_eq, shifted_group_toNat fits shift, or_group low])
    5 value.toNat 0 0 suffix (by decide) (by omega) (by decide) (by omega) (by decide)
  have same : decoded = value := by
    apply UInt32.toNat_inj.mp
    simpa using total
  rw [decodeVarint32, encodeVarint32, ran, same]

def decodeVarint32s : Nat → List Byte → Option (List UInt32 × List Byte)
  | 0, source => some ([], source)
  | count + 1, source =>
    (decodeVarint32 source).bind fun read =>
      (decodeVarint32s count (source.drop read.2)).map fun later =>
        (read.1 :: later.1, later.2)

theorem decodeVarint32s_encodeVarint32 (values : List UInt32) (suffix : List Byte) :
    decodeVarint32s values.length (values.flatMap encodeVarint32 ++ suffix) =
      some (values, suffix) := by
  induction values with
  | nil => rfl
  | cons value values ih =>
    rw [length_cons, flatMap_cons, append_assoc, decodeVarint32s,
      decodeVarint32_encodeVarint32, bind_some, drop_left, ih]
    rfl

/-- Every value takes one to five bytes of which only the last has no flag, and is read back before
any suffix; so are the values of a list. -/
theorem varint32_round_trip :
    (∀ (value : UInt32) (suffix : List Byte),
      1 ≤ (encodeVarint32 value).length ∧ (encodeVarint32 value).length ≤ 5 ∧
        (∃ front last, encodeVarint32 value = front ++ [last] ∧
          (∀ byte ∈ front, byte &&& 0x80 ≠ 0) ∧ last &&& 0x80 = 0) ∧
        decodeVarint32 (encodeVarint32 value ++ suffix) =
          some (value, (encodeVarint32 value).length)) ∧
    ∀ (values : List UInt32) (suffix : List Byte),
      decodeVarint32s values.length (values.flatMap encodeVarint32 ++ suffix) =
        some (values, suffix) := by
  constructor
  · intro value suffix
    have flags := @encodeVarintLoop_flags 5 value.toNat (by have := value.toNat_lt; omega)
      (by decide)
    exact ⟨encodeVarint32_length_pos value, encodeVarint32_length_le value, flags,
      decodeVarint32_encodeVarint32 value suffix⟩
  · exact decodeVarint32s_encodeVarint32

private theorem sign_extended_toNat {shifted : UInt32} (positive : shifted.toNat < 2 ^ 31) :
    shifted.toInt32.toInt64.toUInt64.toNat = shifted.toNat := by
  have bits : shifted.toBitVec.toNat = shifted.toNat := rfl
  have extended : shifted.toInt32.toInt64.toUInt64.toBitVec = shifted.toBitVec.signExtend 64 := rfl
  have msb : shifted.toBitVec.msb = false := by
    rw [BitVec.msb_eq_false_iff_two_mul_lt]
    omega
  rw [← UInt64.toNat_toBitVec, extended, BitVec.signExtend_eq_setWidth_of_msb_false msb,
    BitVec.toNat_setWidth]
  omega

theorem decodeVarint64_encodeVarint64 {value : UInt64} (small : value.toNat < 2 ^ 31)
    (suffix : List Byte) :
    decodeVarint64 (encodeVarint64 value ++ suffix) =
      some (value, (encodeVarint64 value).length) := by
  obtain ⟨decoded, ran, total⟩ := decodeVarintLoop_encode
    (fun shifted => shifted.toInt32.toInt64.toUInt64) UInt64.toNat 31 (by decide)
    (by
      intro result group bitsize low fits shift
      have plain := shifted_group_toNat (Nat.lt_trans fits (by decide)) shift
      rw [UInt64.toNat_or, sign_extended_toNat (by omega), plain, or_group low])
    10 value.toNat 0 0 suffix (by decide) (by omega) (by decide) (by omega) (by decide)
  have same : decoded = value := by
    apply UInt64.toNat_inj.mp
    simpa using total
  rw [decodeVarint64, encodeVarint64, ran, same]

theorem decodeFixed32_encodeFixed32 (value : UInt32) (suffix : List Byte) :
    decodeFixed32 (encodeFixed32 value ++ suffix) = some value := by
  have bound := value.toNat_lt
  simp only [encodeFixed32, cons_append, nil_append, decodeFixed32, Option.some.injEq]
  apply UInt32.toNat_inj.mp
  simp only [UInt32.toNat_or, UInt32.toNat_shiftLeft, UInt8.toNat_toUInt32,
    UInt32.toNat_toUInt8, UInt32.toNat_shiftRight, UInt32.reduceToNat, Nat.shiftLeft_eq,
    Nat.shiftRight_eq_div_pow, Nat.reduceMod, Nat.reducePow]
  have first : value.toNat % 256 ||| value.toNat / 256 % 256 * 2 ^ 8 =
      value.toNat % 256 + value.toNat / 256 % 256 * 2 ^ 8 := or_group (by omega)
  have second : value.toNat % 65536 ||| value.toNat / 65536 % 256 * 2 ^ 16 =
      value.toNat % 65536 + value.toNat / 65536 % 256 * 2 ^ 16 := or_group (by omega)
  have third : value.toNat % 16777216 ||| value.toNat / 16777216 % 256 * 2 ^ 24 =
      value.toNat % 16777216 + value.toNat / 16777216 % 256 * 2 ^ 24 := or_group (by omega)
  have width (group shift : Nat) (small : group < 256) (fits : 256 * shift ≤ 4294967296) :
      group * shift % 4294967296 = group * shift := by
    apply Nat.mod_eq_of_lt
    rcases Nat.eq_zero_or_pos shift with rfl | positive
    · omega
    · exact Nat.lt_of_lt_of_le (Nat.mul_lt_mul_of_pos_right small positive) fits
  rw [width _ 256 (by omega) (by decide), width _ 65536 (by omega) (by decide),
    width _ 16777216 (by omega) (by decide)]
  simp only [Nat.reducePow] at first second third
  rw [first, show value.toNat % 256 + value.toNat / 256 % 256 * 256 = value.toNat % 65536 by
    omega, second, show value.toNat % 65536 + value.toNat / 65536 % 256 * 65536 =
      value.toNat % 16777216 by omega, third]
  omega

@[simp] theorem encodeFixed32_length (value : UInt32) : (encodeFixed32 value).length = 4 := rfl

section Length

variable {ω : Type} [OrOp ω] {widen : UInt32 → ω} {result : ω} {bitsize : Nat}
  {bytes : List Byte} {value : ω} {length : Nat}

/-- The bytes that the loop goes through until it returns. -/
inductive Decodes (widen : UInt32 → ω) : ω → Nat → List Byte → ω → Nat → Prop where
  | last {result : ω} {bitsize : Nat} {byte : Byte} (rest : List Byte) (narrow : bitsize < 32)
      (ended : byte &&& 0x80 = 0) :
      Decodes widen result bitsize (byte :: rest)
        (result ||| widen (byte.toUInt32 <<< UInt32.ofNat bitsize)) 1
  | more {result value : ω} {bitsize length : Nat} {byte : Byte} {rest : List Byte}
      (narrow : bitsize < 32) (continued : byte &&& 0x80 ≠ 0)
      (later : Decodes widen
        (result ||| widen ((byte ^^^ 0x80).toUInt32 <<< UInt32.ofNat bitsize)) (bitsize + 7) rest
        value length) :
      Decodes widen result bitsize (byte :: rest) value (length + 1)

theorem decodeVarintLoop_eq_some_iff :
    decodeVarintLoop widen result bitsize bytes = some (value, length) ↔
      Decodes widen result bitsize bytes value length := by
  constructor
  · intro decoded
    induction bytes generalizing result bitsize length with
    | nil => cases decoded
    | cons byte rest ih =>
      rw [decodeVarintLoop] at decoded
      split at decoded
      next => cases decoded
      next narrow =>
        split at decoded
        next continued =>
          obtain ⟨⟨found, count⟩, later, ended⟩ := map_eq_some_iff.mp decoded
          cases ended
          exact .more (Nat.lt_of_not_le narrow) continued (ih later)
        next ended =>
          cases decoded
          exact .last rest (Nat.lt_of_not_le narrow) (not_not.mp ended)
  · intro decodes
    induction decodes with
    | last rest narrow ended => simp [decodeVarintLoop, narrow, ended]
    | more narrow continued later ih =>
      rw [decodeVarintLoop, if_neg (Nat.not_le.mpr narrow), if_pos continued, ih]
      rfl

section

variable (decoded : decodeVarintLoop widen result bitsize bytes = some (value, length))

include decoded

theorem decodeVarintLoop_length : 0 < length ∧ length ≤ bytes.length := by
  have decodes := decodeVarintLoop_eq_some_iff.mp decoded
  clear decoded
  induction decodes with
  | last rest narrow ended => simp
  | more narrow continued later ih => simpa using ih.2

theorem decodeVarintLoop_bitsize : bitsize + 7 * length < 39 := by
  have decodes := decodeVarintLoop_eq_some_iff.mp decoded
  clear decoded
  induction decodes with
  | last | more => omega

theorem decodeVarintLoop_append (more : List Byte) :
    decodeVarintLoop widen result bitsize (bytes ++ more) = some (value, length) := by
  rw [decodeVarintLoop_eq_some_iff] at decoded ⊢
  induction decoded with
  | last rest narrow ended => exact .last (rest ++ more) narrow ended
  | more narrow continued later ih => exact .more narrow continued ih

end

theorem decodeVarintLoop_invariant (holds : ω → Prop)
    (merged : ∀ (result : ω) (shifted : UInt32), holds result → holds (result ||| widen shifted))
    (start : holds result)
    (decoded : decodeVarintLoop widen result bitsize bytes = some (value, length)) :
    holds value := by
  have decodes := decodeVarintLoop_eq_some_iff.mp decoded
  clear decoded
  induction decodes with
  | last rest narrow ended => exact merged _ _ start
  | more narrow continued later ih => exact ih (merged _ _ start)

theorem decodeVarintLoop_of_append {more : List Byte}
    (decoded : decodeVarintLoop widen result bitsize (bytes ++ more) = some (value, length))
    (inside : length ≤ bytes.length) :
    decodeVarintLoop widen result bitsize bytes = some (value, length) := by
  have positive := (decodeVarintLoop_length decoded).1
  rw [decodeVarintLoop_eq_some_iff] at decoded ⊢
  induction bytes generalizing result bitsize length with
  | nil => simp at inside; omega
  | cons byte rest ih =>
    cases decoded with
    | last _ narrow ended => exact .last rest narrow ended
    | more narrow continued later =>
      have before := decodeVarintLoop_eq_some_iff.mpr later
      exact .more narrow continued
        (ih later (Nat.le_of_succ_le_succ inside) (decodeVarintLoop_length before).1)

end Length

private theorem sign_extended_range (shifted : UInt32) :
    shifted.toInt32.toInt64.toUInt64.toNat < 2 ^ 31 ∨
      2 ^ 64 - 2 ^ 31 ≤ shifted.toInt32.toInt64.toUInt64.toNat := by
  by_cases positive : shifted.toNat < 2 ^ 31
  · rw [sign_extended_toNat positive]
    exact .inl positive
  · have bits : shifted.toBitVec.toNat = shifted.toNat := rfl
    have extended : shifted.toInt32.toInt64.toUInt64.toBitVec =
        shifted.toBitVec.signExtend 64 := rfl
    have msb : shifted.toBitVec.msb = true := by
      rw [BitVec.msb_eq_true_iff_two_mul_ge]
      omega
    rw [← UInt64.toNat_toBitVec, extended, BitVec.toNat_signExtend, msb]
    right
    rw [if_pos rfl, BitVec.toNat_setWidth]
    omega

theorem decodeVarint64_range {source : List Byte} {value : UInt64} {length : Nat}
    (decoded : decodeVarint64 source = some (value, length)) :
    value.toNat < 2 ^ 31 ∨ 2 ^ 64 - 2 ^ 31 ≤ value.toNat := by
  have extended : ∃ shifted : UInt32, value = shifted.toInt32.toInt64.toUInt64 := by
    refine decodeVarintLoop_invariant
      (fun value : UInt64 => ∃ shifted : UInt32, value = shifted.toInt32.toInt64.toUInt64)
      ?_ ⟨0, rfl⟩ decoded
    rintro result group ⟨shifted, rfl⟩
    refine ⟨shifted ||| group, ?_⟩
    apply UInt64.toBitVec_inj.mp
    exact BitVec.signExtend_or.symm
  obtain ⟨shifted, rfl⟩ := extended
  exact sign_extended_range shifted

theorem decodeVarintLoop_encode_length {ω : Type} [OrOp ω] {widen : UInt32 → ω}
    {value bitsize length : Nat} {result decoded : ω} {suffix : List Byte}
    (enough : value < 128 ^ fuel) (positive : 0 < fuel)
    (ran : decodeVarintLoop widen result bitsize (encodeVarintLoop fuel value ++ suffix) =
      some (decoded, length)) : length = (encodeVarintLoop fuel value).length := by
  induction fuel generalizing value bitsize length result with
  | zero => omega
  | succ fuel ih =>
    rw [encodeVarintLoop] at ran ⊢
    by_cases more : 0x80 ≤ value
    · rw [if_pos more, cons_append, decodeVarintLoop] at ran
      rw [if_pos more, length_cons]
      split at ran
      · cases ran
      · rw [if_pos (continuation_byte_flag value)] at ran
        obtain ⟨⟨found, count⟩, later, ended⟩ := map_eq_some_iff.mp ran
        cases ended
        rw [ih (shiftRight_lt_iff.mpr enough) (groups_pos enough more) later]
    · rw [if_neg more, cons_append, decodeVarintLoop] at ran
      rw [if_neg more, length_singleton]
      split at ran
      · cases ran
      · rw [if_neg (not_not.mpr (last_byte_flag (by omega)))] at ran
        cases ran
        rfl

theorem decodeVarint64_encodeVarint64_small {value : UInt64} {suffix : List Byte} {length : Nat}
    (decoded : decodeVarint64 (encodeVarint64 value ++ suffix) = some (value, length)) :
    value.toNat < 2 ^ 31 := by
  have ended : length = (encodeVarint64 value).length :=
    decodeVarintLoop_encode_length (by have := value.toNat_lt; omega) (by decide) decoded
  have shifted := decodeVarintLoop_bitsize decoded
  have narrow := (encodeVarint64_length_le_iff value (show 0 < 5 by decide)).mp (by omega)
  rcases decodeVarint64_range decoded with small | large
  · exact small
  · omega

theorem decodeFixed32_append {bytes : List Byte} {value : UInt32}
    (decoded : decodeFixed32 bytes = some value) (more : List Byte) :
    decodeFixed32 (bytes ++ more) = some value := by
  match bytes with
  | _ :: _ :: _ :: _ :: _ => exact decoded

theorem decodeFixed32_of_append {bytes more : List Byte} {value : UInt32}
    (decoded : decodeFixed32 (bytes ++ more) = some value) (inside : 4 ≤ bytes.length) :
    decodeFixed32 bytes = some value := by
  match bytes with
  | _ :: _ :: _ :: _ :: _ => exact decoded

end Bitdb
