import Bitdb.Utils.Coding
import Mathlib.Data.List.TakeWhile

/-! The borrowed byte view `Bytes` (`bitdb/utils/bytes.h`). The code uses it with its size, and as a
C string that ends at the first NUL wherever the size says it ends. `operator<` is the lexicographic
order, but `compare` never returns zero, and equal contents at two places have two hashes. -/

set_option autoImplicit false

namespace Bitdb

def ascii (literal : String) : List Byte :=
  literal.toList.map fun character => UInt8.ofNat character.toNat

/-- A view of memory. `memory` is what can be read from the pointer on, which may be
more than the `size` bytes the view claims. -/
structure Bytes where
  memory : List Byte
  size : Nat
  deriving DecidableEq, Repr

namespace Bytes

/-- `Bytes(const std::string&)`: the characters are followed by a NUL in memory. -/
def ofString (content : List Byte) : Bytes := ⟨content ++ [0], content.length⟩

def empty (bytes : Bytes) : Bool := bytes.size = 0

def toString (bytes : Bytes) : List Byte := bytes.memory.take bytes.size

/-- What `std::string(bytes.data())` reads: everything before the first NUL. -/
def cString (bytes : Bytes) : List Byte := bytes.memory.takeWhile (· ≠ 0)

/-- A view whose two readings agree: no NUL among its bytes and one right after them. -/
structure Plain (bytes : Bytes) : Prop where
  nulFree : 0 ∉ bytes.toString
  terminated : bytes.memory[bytes.size]? = some 0

private theorem takeWhile_nulFree (content rest : List Byte) (nulFree : 0 ∉ content) :
    (content ++ 0 :: rest).takeWhile (· ≠ 0) = content := by
  induction content with
  | nil => simp
  | cons byte content ih =>
    simp only [List.mem_cons, not_or] at nulFree
    have different : byte ≠ 0 := fun same => nulFree.1 same.symm
    simpa [List.takeWhile_cons, different] using ih nulFree.2

theorem Plain.cString_eq {bytes : Bytes} (plain : bytes.Plain) :
    bytes.cString = bytes.toString := by
  obtain ⟨inside, found⟩ := List.getElem?_eq_some_iff.mp plain.terminated
  have split : bytes.memory = bytes.toString ++ 0 :: bytes.memory.drop (bytes.size + 1) := by
    rw [toString, ← found, List.getElem_cons_drop, List.take_append_drop]
  rw [cString, split]
  exact takeWhile_nulFree _ _ plain.nulFree

@[simp] theorem toString_ofString (content : List Byte) :
    (ofString content).toString = content := by
  simp [ofString, toString]

theorem plain_ofString {content : List Byte} (nulFree : 0 ∉ content) :
    (ofString content).Plain where
  nulFree := by simpa using nulFree
  terminated := by simp [ofString]

theorem nul_not_mem_cString (bytes : Bytes) : 0 ∉ bytes.cString := by
  intro member
  have different := List.mem_takeWhile_imp member
  simp at different

theorem cString_ofString {content : List Byte} (nulFree : 0 ∉ content) :
    (ofString content).cString = content := by
  rw [(plain_ofString nulFree).cString_eq, toString_ofString]

@[simp] theorem empty_ofString (content : List Byte) :
    (ofString content).empty = content.isEmpty := by
  cases content <;> simp [ofString, empty]

end Bytes

/-- `std::memcmp`: negative, zero or positive as the first bytes that differ, taken as unsigned. -/
def memcmp : List Byte → List Byte → Nat → Int
  | first :: firstRest, second :: secondRest, count + 1 =>
    if first = second then memcmp firstRest secondRest count
    else (first.toNat : Int) - second.toNat
  | _, _, _ => 0

namespace Bytes

def compare (bytes b : Bytes) : Int :=
  let minLen := min b.size bytes.size
  let res := memcmp bytes.memory b.memory minLen
  if res = 0 then if bytes.size < b.size then -1 else 1
  else res

def eq (x y : Bytes) : Bool := x.size = y.size ∧ memcmp x.memory y.memory x.size = 0

def gt (x y : Bytes) : Bool := x.compare y > 0

def ge (x y : Bytes) : Bool := x.compare y ≥ 0

def lt (x y : Bytes) : Bool := x.compare y < 0

def le (x y : Bytes) : Bool := x.compare y ≤ 0

end Bytes

/-- A view together with the address its pointer holds; the bytes it claims are there. -/
structure PlacedBytes where
  address : Nat
  bytes : Bytes
  readable : bytes.size ≤ bytes.memory.length

/-- `std::hash<Bytes>`, which hashes the pointer. -/
def hashBytes (pointerHash : Nat → Nat) (placed : PlacedBytes) : Nat := pointerHash placed.address

theorem memcmp_take (first second : List Byte) {count firstSize secondSize : Nat}
    (firstLong : count ≤ firstSize) (secondLong : count ≤ secondSize) :
    memcmp (first.take firstSize) (second.take secondSize) count = memcmp first second count := by
  induction count generalizing first second firstSize secondSize with
  | zero => simp [memcmp]
  | succ count ih =>
    obtain ⟨firstSize, rfl⟩ := Nat.exists_eq_succ_of_ne_zero (by omega : firstSize ≠ 0)
    obtain ⟨secondSize, rfl⟩ := Nat.exists_eq_succ_of_ne_zero (by omega : secondSize ≠ 0)
    cases first with
    | nil => simp [memcmp]
    | cons byte first =>
      cases second with
      | nil => simp [memcmp]
      | cons other second =>
        simp only [List.take_succ_cons, memcmp]
        rw [ih first second (by omega) (by omega)]

theorem memcmp_decides (first second : List Byte) :
    (first < second ↔ memcmp first second (min second.length first.length) < 0 ∨
      memcmp first second (min second.length first.length) = 0 ∧ first.length < second.length) ∧
    (first = second ↔ memcmp first second (min second.length first.length) = 0 ∧
      first.length = second.length) := by
  induction first generalizing second with
  | nil => cases second <;> simp [memcmp]
  | cons byte first ih =>
    cases second with
    | nil => simp [memcmp]
    | cons other second =>
      obtain ⟨less, same⟩ := ih second
      have count : min (other :: second).length (byte :: first).length =
          min second.length first.length + 1 := by
        simp only [List.length_cons]
        omega
      rw [count, memcmp, List.cons_lt_cons_iff, List.cons.injEq, List.length_cons,
        List.length_cons, Nat.add_lt_add_iff_right, Nat.add_right_cancel_iff]
      by_cases equal : byte = other
      · have irrefl : ¬ other < other := UInt8.lt_irrefl other
        rw [if_pos equal, less, same]
        simp [equal, irrefl]
      · have different : byte.toNat ≠ other.toNat := fun values =>
          equal (UInt8.toNat_inj.mp values)
        have smaller : byte < other ↔ byte.toNat < other.toNat := UInt8.lt_iff_toNat_lt
        rw [if_neg equal, smaller]
        simp only [equal, false_and, or_false, false_iff]
        constructor
        · omega
        · omega

namespace Bytes

variable (x y : Bytes)

theorem compare_neg_iff :
    x.compare y < 0 ↔ memcmp x.memory y.memory (min y.size x.size) < 0 ∨
      memcmp x.memory y.memory (min y.size x.size) = 0 ∧ x.size < y.size := by
  simp only [compare]
  split
  case isTrue zero =>
    by_cases shorter : x.size < y.size <;> simp [zero, shorter]
  case isFalse nonzero => simp [nonzero]

theorem compare_ne_zero : x.compare y ≠ 0 := by
  simp only [compare]
  split
  case isTrue => split <;> decide
  case isFalse nonzero => exact nonzero

theorem le_eq_lt : x.le y = x.lt y := by
  have nonzero := compare_ne_zero x y
  simp only [le, lt, decide_eq_decide]
  omega

theorem ge_eq_gt : x.ge y = x.gt y := by
  have nonzero := compare_ne_zero x y
  simp only [ge, gt, decide_eq_decide]
  omega

theorem gt_eq_not_lt : x.gt y = !x.lt y := by
  have nonzero := compare_ne_zero x y
  simp only [gt, lt, ← decide_not, decide_eq_decide]
  omega

end Bytes

namespace PlacedBytes

variable (a b c : PlacedBytes)

def content (placed : PlacedBytes) : List Byte := placed.bytes.toString

theorem length_content (placed : PlacedBytes) : placed.content.length = placed.bytes.size := by
  simp [content, Bytes.toString, placed.readable]

theorem lt_iff : a.bytes.lt b.bytes ↔ a.content < b.content := by
  have order := (memcmp_decides a.content b.content).1
  rw [length_content, length_content, content, content, Bytes.toString, Bytes.toString,
    memcmp_take _ _ (Nat.min_le_right _ _) (Nat.min_le_left _ _)] at order
  rw [content, content, Bytes.toString, Bytes.toString, order, Bytes.lt, decide_eq_true_iff]
  exact Bytes.compare_neg_iff a.bytes b.bytes

theorem eq_iff : a.bytes.eq b.bytes ↔ a.content = b.content := by
  have order := (memcmp_decides a.content b.content).2
  rw [length_content, length_content, content, content, Bytes.toString, Bytes.toString,
    memcmp_take _ _ (Nat.min_le_right _ _) (Nat.min_le_left _ _)] at order
  rw [content, content, Bytes.toString, Bytes.toString, order]
  simp only [Bytes.eq, decide_eq_true_eq]
  constructor
  · rintro ⟨sizes, zero⟩
    refine ⟨?_, sizes⟩
    rwa [← sizes, Nat.min_self]
  · rintro ⟨zero, sizes⟩
    refine ⟨sizes, ?_⟩
    rwa [← sizes, Nat.min_self] at zero

theorem exactly_one :
    (a.bytes.lt b.bytes ∧ ¬ a.bytes.eq b.bytes ∧ ¬ b.bytes.lt a.bytes) ∨
      (¬ a.bytes.lt b.bytes ∧ a.bytes.eq b.bytes ∧ ¬ b.bytes.lt a.bytes) ∨
      (¬ a.bytes.lt b.bytes ∧ ¬ a.bytes.eq b.bytes ∧ b.bytes.lt a.bytes) := by
  rw [lt_iff, eq_iff, lt_iff]
  by_cases less : a.content < b.content
  · have different : a.content ≠ b.content := by
      intro same
      rw [same] at less
      exact List.lt_irrefl _ less
    exact .inl ⟨less, different, List.lt_asymm less⟩
  · by_cases greater : b.content < a.content
    · have different : a.content ≠ b.content := by
        intro same
        rw [same] at greater
        exact List.lt_irrefl _ greater
      exact .inr (.inr ⟨less, different, greater⟩)
    · exact .inr (.inl ⟨less, List.le_antisymm greater less, greater⟩)

theorem lt_trans (first : a.bytes.lt b.bytes) (second : b.bytes.lt c.bytes) :
    a.bytes.lt c.bytes := by
  rw [lt_iff] at first second ⊢
  exact List.lt_trans first second

theorem hash_agrees_iff (pointerHash : Nat → Nat) :
    (∀ a b : PlacedBytes, a.bytes.eq b.bytes → hashBytes pointerHash a = hashBytes pointerHash b) ↔
      ∀ first second, pointerHash first = pointerHash second := by
  constructor
  · intro agrees first second
    exact agrees ⟨first, .ofString [], by decide⟩ ⟨second, .ofString [], by decide⟩ rfl
  · intro constant a b _
    exact constant a.address b.address

/-- The order is as it should be except for `<=` and `>` on equal contents; the hash is the same for
equal contents only if it is the same for all pointers. -/
theorem bytes_order_iff (pointerHash : Nat → Nat) :
    (∀ a b c : PlacedBytes, ((a.bytes.lt b.bytes ∧ ¬ a.bytes.eq b.bytes ∧ ¬ b.bytes.lt a.bytes) ∨
        (¬ a.bytes.lt b.bytes ∧ a.bytes.eq b.bytes ∧ ¬ b.bytes.lt a.bytes) ∨
        (¬ a.bytes.lt b.bytes ∧ ¬ a.bytes.eq b.bytes ∧ b.bytes.lt a.bytes)) ∧
      ((a.bytes.le b.bytes ↔ a.bytes.lt b.bytes ∨ a.bytes.eq b.bytes) ↔ ¬ a.bytes.eq b.bytes) ∧
      ((a.bytes.gt b.bytes ↔ b.bytes.lt a.bytes) ↔ ¬ a.bytes.eq b.bytes) ∧
      (a.bytes.ge b.bytes ↔ a.bytes.gt b.bytes ∨ a.bytes.eq b.bytes) ∧
      (a.bytes.lt b.bytes → b.bytes.lt c.bytes → a.bytes.lt c.bytes) ∧
      (a.bytes.lt b.bytes ↔ a.content < b.content) ∧
      (a.bytes.eq b.bytes ↔ a.content = b.content)) ∧
    ((∀ a b : PlacedBytes, a.bytes.eq b.bytes → hashBytes pointerHash a = hashBytes pointerHash b) ↔
      ∀ first second, pointerHash first = pointerHash second) := by
  refine ⟨?_, hash_agrees_iff pointerHash⟩
  intro a b c
  have one := exactly_one a b
  refine ⟨one, ?_, ?_, ?_, lt_trans a b c, lt_iff a b, eq_iff a b⟩
  · rcases one with one | one | one <;> simp [Bytes.le_eq_lt, one]
  · rcases one with one | one | one <;> simp [Bytes.gt_eq_not_lt, one]
  · rcases one with one | one | one <;> simp [Bytes.ge_eq_gt, Bytes.gt_eq_not_lt, one]

/-- Two copies of one key: the second is neither `<=` nor hashed like the first. -/
theorem bytes_order_of_copies :
    (Bytes.ofString [107]).eq (.ofString [107]) ∧ ¬ (Bytes.ofString [107]).le (.ofString [107]) ∧
      (Bytes.ofString [107]).gt (.ofString [107]) ∧
      hashBytes id ⟨4096, .ofString [107], by decide⟩ ≠
        hashBytes id ⟨8192, .ofString [107], by decide⟩ := by
  decide

end PlacedBytes

end Bitdb
