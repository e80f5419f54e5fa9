import Bitdb.Base.Spans
import Mathlib.Algebra.Order.BigOperators.Group.List
import Mathlib.Algebra.Order.Group.Nat

/-! The arena (`bitdb/utils/arena.h` and `arena.cpp`). Pointers are addresses, the block that a
pointer of `blocks_` points to is kept with its size, and `size_t` wraps around. -/

set_option autoImplicit false

namespace Bitdb

open Base List

/-- `operator new[]`: the address of a block of the given size, when these blocks are allocated. The
block is aligned to 8 bytes and overlaps none of them. -/
structure NewArray where
  address : List Span → Nat → Nat
  aligned : ∀ blocks bytes, 8 ∣ address blocks bytes
  fresh : ∀ blocks bytes, ∀ block ∈ blocks, Span.Apart ⟨address blocks bytes, bytes⟩ block

def kBlockSize : Nat := 4096

def pointerSize : Nat := 8

structure Arena where
  allocPtr : Nat := 0
  allocBytesRemaining : Nat := 0
  blocks : List Span := []
  memoryUsage : Nat := 0
  deriving DecidableEq, Repr

namespace Arena

variable (heap : NewArray)

def allocateNewBlock (arena : Arena) (blockBytes : Nat) : Nat × Arena :=
  let newBlock := heap.address arena.blocks blockBytes
  (newBlock,
    { arena with
      blocks := arena.blocks ++ [⟨newBlock, blockBytes⟩]
      memoryUsage := (arena.memoryUsage + (blockBytes + pointerSize)) % 2 ^ 64 })

def bump (arena : Arena) (bytes : Nat) : Arena :=
  { arena with
    allocPtr := arena.allocPtr + bytes
    allocBytesRemaining := arena.allocBytesRemaining - bytes }

def allocateFallback (arena : Arena) (bytes : Nat) : Nat × Arena :=
  if bytes > kBlockSize / 4 then arena.allocateNewBlock heap bytes
  else
    let (newBlock, arena) := arena.allocateNewBlock heap kBlockSize
    let arena := { arena with allocPtr := newBlock, allocBytesRemaining := kBlockSize }
    (arena.allocPtr, arena.bump bytes)

def allocate (arena : Arena) (bytes : Nat) : Nat × Arena :=
  if bytes ≤ arena.allocBytesRemaining then (arena.allocPtr, arena.bump bytes)
  else arena.allocateFallback heap bytes

def alignment : Nat := if pointerSize > 8 then pointerSize else 8

def slop (arena : Arena) : Nat :=
  let currentMod := arena.allocPtr &&& (alignment - 1)
  if currentMod = 0 then 0 else alignment - currentMod

def allocateAligned (arena : Arena) (bytes : Nat) : Nat × Arena :=
  let needed := (bytes + arena.slop) % 2 ^ 64
  if needed ≤ arena.allocBytesRemaining then (arena.allocPtr + arena.slop, arena.bump needed)
  else arena.allocateFallback heap needed

end Arena

structure ArenaRequest where
  aligned : Bool
  bytes : Nat
  deriving DecidableEq, Repr

structure Allocation where
  request : ArenaRequest
  pointer : Nat
  deriving DecidableEq, Repr

def Allocation.span (allocation : Allocation) : Span :=
  ⟨allocation.pointer, allocation.request.bytes⟩

namespace Arena

variable (heap : NewArray)

def serve (arena : Arena) (request : ArenaRequest) : Nat × Arena :=
  if request.aligned then arena.allocateAligned heap request.bytes
  else arena.allocate heap request.bytes

def serveAll (arena : Arena) : List ArenaRequest → List Allocation × Arena
  | [] => ([], arena)
  | request :: rest =>
    let (pointer, arena) := arena.serve heap request
    let (allocations, arena) := arena.serveAll rest
    (⟨request, pointer⟩ :: allocations, arena)

variable {heap} {arena : Arena}

theorem slop_eq (arena : Arena) :
    arena.slop = if arena.allocPtr % 8 = 0 then 0 else 8 - arena.allocPtr % 8 := by
  have mask : arena.allocPtr &&& (alignment - 1) = arena.allocPtr % 8 :=
    Nat.and_two_pow_sub_one_eq_mod arena.allocPtr 3
  simp only [slop, mask]
  rfl

theorem slop_le (arena : Arena) : arena.slop ≤ 7 := by
  rw [slop_eq]
  split <;> omega

theorem aligned_slop (arena : Arena) : 8 ∣ arena.allocPtr + arena.slop := by
  rw [slop_eq]
  split <;> omega

/-- What a request can do: it takes `needed` bytes from the current block, or it gets a block of its
own, or it gets the start of a new current block. -/
inductive Step (heap : NewArray) (arena : Arena) (bytes : Nat) : Nat → Arena → Prop where
  | bump {needed} : bytes ≤ needed → needed ≤ arena.allocBytesRemaining →
      Step heap arena bytes (arena.allocPtr + (needed - bytes)) (arena.bump needed)
  | own {needed} : bytes ≤ needed → needed ≤ bytes + 7 →
      Step heap arena bytes (arena.allocateNewBlock heap needed).1
        (arena.allocateNewBlock heap needed).2
  | shared {needed} : bytes ≤ needed → needed ≤ kBlockSize →
      Step heap arena bytes (arena.allocateNewBlock heap kBlockSize).1
        ({ (arena.allocateNewBlock heap kBlockSize).2 with
          allocPtr := (arena.allocateNewBlock heap kBlockSize).1
          allocBytesRemaining := kBlockSize }.bump needed)

theorem step_allocateFallback {bytes needed : Nat} (enough : bytes ≤ needed)
    (padded : needed ≤ bytes + 7) :
    Step heap arena bytes (arena.allocateFallback heap needed).1
      (arena.allocateFallback heap needed).2 := by
  unfold allocateFallback
  split
  case isTrue => exact .own enough padded
  case isFalse small =>
    have fits : needed ≤ kBlockSize := by
      simp only [kBlockSize] at small ⊢
      omega
    exact .shared enough fits

theorem step_serve {request : ArenaRequest} (small : request.bytes < 2 ^ 48) :
    Step heap arena request.bytes (arena.serve heap request).1 (arena.serve heap request).2 := by
  have padding := arena.slop_le
  have needed : (request.bytes + arena.slop) % 2 ^ 64 = request.bytes + arena.slop :=
    Nat.mod_eq_of_lt (by omega)
  unfold serve
  split
  case isTrue =>
    simp only [allocateAligned, needed]
    split
    case isTrue fits =>
      have taken : Step heap arena request.bytes _ _ :=
        .bump (Nat.le_add_right request.bytes arena.slop) fits
      rwa [Nat.add_sub_cancel_left] at taken
    case isFalse => exact step_allocateFallback (by omega) (by omega)
  case isFalse =>
    unfold allocate
    split
    case isTrue fits =>
      have taken : Step heap arena request.bytes _ _ := .bump (Nat.le_refl request.bytes) fits
      rwa [Nat.sub_self] at taken
    case isFalse => exact step_allocateFallback (by omega) (by omega)

theorem aligned_allocateFallback (bytes : Nat) : 8 ∣ (arena.allocateFallback heap bytes).1 := by
  unfold allocateFallback
  split
  · exact heap.aligned _ _
  · exact heap.aligned _ _

theorem aligned_serve {request : ArenaRequest} (aligned : request.aligned = true) :
    8 ∣ (arena.serve heap request).1 := by
  simp only [serve, aligned, if_true, allocateAligned]
  split
  · exact arena.aligned_slop
  · exact aligned_allocateFallback _

def free (arena : Arena) : Span := ⟨arena.allocPtr, arena.allocBytesRemaining⟩

def owned (blocks : List Span) : Nat := (blocks.map fun block => block.size + pointerSize).sum

def total (spans : List Span) : Nat := (spans.map Span.size).sum

structure Inv (arena : Arena) (taken : List Span) : Prop where
  taken_apart : taken.Pairwise Span.Apart
  taken_inside : ∀ span ∈ taken, ∃ block ∈ arena.blocks, span.Within block
  free_inside : arena.allocBytesRemaining = 0 ∨ ∃ block ∈ arena.blocks, arena.free.Within block
  free_apart : ∀ span ∈ taken, arena.free.Apart span
  room : total taken + arena.allocBytesRemaining ≤ owned arena.blocks
  usage_eq : arena.memoryUsage = owned arena.blocks
  usage_le : owned arena.blocks ≤ 4104 * total taken

theorem inv_initial : Inv {} [] := by
  constructor <;> simp [total, owned]

variable {taken : List Span} {bytes needed : Nat}

theorem total_cons (span : Span) (spans : List Span) :
    total (span :: spans) = span.size + total spans := by
  simp [total]

theorem owned_append (blocks : List Span) (block : Span) :
    owned (blocks ++ [block]) = owned blocks + (block.size + pointerSize) := by
  simp [owned]

section

variable (inv : Inv arena taken)

include inv

theorem Inv.fresh_apart (heap : NewArray) (size : Nat) :
    (∀ span ∈ taken, Span.Apart ⟨heap.address arena.blocks size, size⟩ span) ∧
      arena.free.Apart ⟨heap.address arena.blocks size, size⟩ := by
  constructor
  · intro span member
    obtain ⟨block, owns, inside⟩ := inv.taken_inside span member
    exact (heap.fresh arena.blocks size block owns).mono (.refl _) inside
  · rcases inv.free_inside with none_left | ⟨block, owns, inside⟩
    · rw [Span.apart_iff]
      simp only [free, none_left]
      omega
    · exact (heap.fresh arena.blocks size block owns).symm.mono inside (.refl _)

theorem Inv.bump (positive : 0 < bytes) (enough : bytes ≤ needed)
    (fits : needed ≤ arena.allocBytesRemaining) :
    Inv (arena.bump needed) (⟨arena.allocPtr + (needed - bytes), bytes⟩ :: taken) := by
  have inside : Span.Within ⟨arena.allocPtr + (needed - bytes), bytes⟩ arena.free := by
    apply Span.within_of_le
    · exact Nat.le_add_right _ _
    · simp only [free]
      omega
  have rest : (arena.bump needed).free.Within arena.free := by
    apply Span.within_of_le
    · exact Nat.le_add_right _ _
    · simp only [free, Arena.bump]
      omega
  obtain ⟨block, owns, freeInside⟩ :=
    inv.free_inside.resolve_left (by omega : arena.allocBytesRemaining ≠ 0)
  have room := inv.room
  have usage := inv.usage_le
  refine ⟨pairwise_cons.mpr ⟨?_, inv.taken_apart⟩,
    forall_mem_cons.mpr ⟨⟨block, owns, inside.trans freeInside⟩, inv.taken_inside⟩,
    .inr ⟨block, owns, rest.trans freeInside⟩, forall_mem_cons.mpr ⟨?_, ?_⟩, ?_, inv.usage_eq,
    ?_⟩
  · intro span member
    exact (inv.free_apart span member).mono inside (.refl _)
  · rw [Span.apart_iff]
    simp only [free, Arena.bump]
    omega
  · intro span member
    exact (inv.free_apart span member).mono rest (.refl _)
  · rw [total_cons]
    simp only [Arena.bump]
    omega
  · rw [total_cons]
    simp only [Arena.bump]
    omega

theorem Inv.newBlock {size : Nat} (fits : bytes ≤ size) {next : Arena}
    (blocks : next.blocks = (arena.allocateNewBlock heap size).2.blocks)
    (usage : next.memoryUsage = (arena.allocateNewBlock heap size).2.memoryUsage)
    (inside : next.allocBytesRemaining = 0 ∨ ∃ block ∈ next.blocks, next.free.Within block)
    (apart : ∀ span ∈ taken, next.free.Apart span)
    (apartNew : next.free.Apart ⟨(arena.allocateNewBlock heap size).1, bytes⟩)
    (room : bytes + total taken + next.allocBytesRemaining ≤ owned arena.blocks + (size + 8))
    (bounded : owned arena.blocks + (size + 8) ≤ 4104 * (bytes + total taken))
    (small : bytes + total taken < 2 ^ 48) :
    Inv next (⟨(arena.allocateNewBlock heap size).1, bytes⟩ :: taken) := by
  have grown : owned next.blocks = owned arena.blocks + (size + 8) := by
    rw [blocks]
    exact owned_append _ _
  have start : Span.Within ⟨(arena.allocateNewBlock heap size).1, bytes⟩
      ⟨heap.address arena.blocks size, size⟩ :=
    Span.within_of_le (Nat.le_refl _) (Nat.add_le_add_left fits _)
  refine ⟨pairwise_cons.mpr ⟨?_, inv.taken_apart⟩, forall_mem_cons.mpr ⟨?_, ?_⟩, inside,
    forall_mem_cons.mpr ⟨apartNew, apart⟩, ?_, ?_, ?_⟩
  · intro span member
    exact ((inv.fresh_apart heap size).1 span member).mono start (.refl _)
  · refine ⟨⟨heap.address arena.blocks size, size⟩, ?_, start⟩
    rw [blocks]
    exact mem_append_right _ (mem_singleton_self _)
  · intro span member
    obtain ⟨block, owns, within⟩ := inv.taken_inside span member
    refine ⟨block, ?_, within⟩
    rw [blocks]
    exact mem_append_left _ owns
  · rw [grown, total_cons]
    exact room
  · rw [grown, usage, allocateNewBlock, inv.usage_eq]
    exact Nat.mod_eq_of_lt (by simp only [pointerSize]; omega)
  · rw [grown, total_cons]
    exact bounded

theorem Inv.own (positive : 0 < bytes) (enough : bytes ≤ needed) (padded : needed ≤ bytes + 7)
    (small : bytes + total taken < 2 ^ 48) :
    Inv (arena.allocateNewBlock heap needed).2
      (⟨(arena.allocateNewBlock heap needed).1, bytes⟩ :: taken) := by
  have room := inv.room
  have usage := inv.usage_le
  have kept : (arena.allocateNewBlock heap needed).2.free = arena.free := rfl
  refine inv.newBlock enough rfl rfl ?_ ?_ ?_ ?_ (by omega) small
  · rcases inv.free_inside with none_left | ⟨block, owns, within⟩
    · exact .inl none_left
    · exact .inr ⟨block, mem_append_left _ owns, within⟩
  · exact inv.free_apart
  · rw [kept]
    refine (inv.fresh_apart heap needed).2.mono (.refl _) ?_
    exact Span.within_of_le (Nat.le_refl _) (Nat.add_le_add_left enough _)
  · simp only [allocateNewBlock]
    omega

theorem Inv.shared (positive : 0 < bytes) (enough : bytes ≤ needed) (fits : needed ≤ kBlockSize)
    (small : bytes + total taken < 2 ^ 48) :
    Inv ({ (arena.allocateNewBlock heap kBlockSize).2 with
        allocPtr := (arena.allocateNewBlock heap kBlockSize).1
        allocBytesRemaining := kBlockSize }.bump needed)
      (⟨(arena.allocateNewBlock heap kBlockSize).1, bytes⟩ :: taken) := by
  have room := inv.room
  have usage := inv.usage_le
  have rest : Span.Within ⟨heap.address arena.blocks kBlockSize + needed, kBlockSize - needed⟩
      ⟨heap.address arena.blocks kBlockSize, kBlockSize⟩ := by
    apply Span.within_of_le
    · exact Nat.le_add_right _ _
    · simp only
      omega
  refine inv.newBlock (enough.trans fits) rfl rfl ?_ ?_ ?_ ?_ ?_ small
  · exact .inr ⟨_, mem_append_right _ (mem_singleton_self _), rest⟩
  · intro span member
    exact ((inv.fresh_apart heap kBlockSize).1 span member).mono rest (.refl _)
  · rw [Span.apart_iff]
    simp only [free, Arena.bump]
    omega
  · simp only [Arena.bump]
    omega
  · simp only [kBlockSize]
    omega

theorem Inv.step (positive : 0 < bytes) (small : bytes + total taken < 2 ^ 48) {pointer : Nat}
    {next : Arena} (step : Step heap arena bytes pointer next) :
    Inv next (⟨pointer, bytes⟩ :: taken) := by
  cases step with
  | bump enough fits => exact inv.bump positive enough fits
  | own enough padded => exact inv.own positive enough padded small
  | shared enough fits => exact inv.shared positive enough fits small

end

theorem Inv.serveAll {requests : List ArenaRequest} (inv : Inv arena taken)
    (positive : ∀ request ∈ requests, 0 < request.bytes)
    (small : (requests.map ArenaRequest.bytes).sum + total taken < 2 ^ 48) :
    ∃ order, order.Perm ((arena.serveAll heap requests).1.map Allocation.span ++ taken) ∧
      Inv (arena.serveAll heap requests).2 order := by
  induction requests generalizing arena taken with
  | nil => exact ⟨taken, .refl _, inv⟩
  | cons request requests ih =>
    obtain ⟨first, rest⟩ := forall_mem_cons.mp positive
    simp only [map_cons, sum_cons] at small
    have served : Step heap arena request.bytes _ _ := step_serve (by omega)
    have step := inv.step first (by omega) served
    obtain ⟨order, permuted, kept⟩ := ih step rest (by rw [total_cons]; simp only; omega)
    refine ⟨order, permuted.trans ?_, kept⟩
    exact perm_middle

theorem aligned_serveAll (requests : List ArenaRequest) :
    ∀ allocation ∈ (arena.serveAll heap requests).1,
      allocation.request.aligned = true → 8 ∣ allocation.pointer := by
  induction requests generalizing arena with
  | nil => simp [Arena.serveAll]
  | cons request requests ih =>
    exact forall_mem_cons.mpr ⟨fun aligned => aligned_serve aligned, ih⟩

theorem requests_serveAll (requests : List ArenaRequest) :
    (arena.serveAll heap requests).1.map Allocation.request = requests := by
  induction requests generalizing arena with
  | nil => rfl
  | cons request requests ih => simp [Arena.serveAll, ih]

theorem total_spans (allocations : List Allocation) :
    total (allocations.map Allocation.span) =
      ((allocations.map Allocation.request).map ArenaRequest.bytes).sum := by
  simp only [total, map_map]
  rfl

/-- The allocations are apart, inside the blocks, aligned where this was asked for, and
`MemoryUsage()` covers them. -/
theorem arena_allocations (heap : NewArray) (requests : List ArenaRequest)
    (positive : ∀ request ∈ requests, 0 < request.bytes)
    (small : (requests.map ArenaRequest.bytes).sum < 2 ^ 48) :
    (Arena.serveAll heap {} requests).1.map Allocation.request = requests ∧
      ((Arena.serveAll heap {} requests).1.map Allocation.span).Pairwise Span.Apart ∧
      (∀ allocation ∈ (Arena.serveAll heap {} requests).1,
        ∃ block ∈ (Arena.serveAll heap {} requests).2.blocks, allocation.span.Within block) ∧
      (∀ allocation ∈ (Arena.serveAll heap {} requests).1,
        allocation.request.aligned = true → 8 ∣ allocation.pointer) ∧
      (requests.map ArenaRequest.bytes).sum ≤ (Arena.serveAll heap {} requests).2.memoryUsage := by
  obtain ⟨order, permuted, inv⟩ := @Inv.serveAll heap {} [] requests inv_initial positive small
  rw [append_nil] at permuted
  have sums : total order = (requests.map ArenaRequest.bytes).sum := by
    rw [total, (permuted.map Span.size).sum_nat, ← total, total_spans, requests_serveAll]
  refine ⟨requests_serveAll requests, ?_, ?_, aligned_serveAll requests, ?_⟩
  · exact (permuted.pairwise_iff Span.Apart.symm).mp inv.taken_apart
  · intro allocation member
    exact inv.taken_inside _ (permuted.mem_iff.mpr (mem_map_of_mem member))
  · have room := inv.room
    rw [inv.usage_eq, ← sums]
    omega

end Arena

def NewArray.behind : NewArray where
  address := fun blocks _ => 8 * (blocks.map fun block => block.start + block.size).sum
  aligned := fun _ _ => Nat.dvd_mul_right _ _
  fresh := by
    intro blocks bytes block member
    have below : block.start + block.size ≤
        (blocks.map fun block => block.start + block.size).sum :=
      le_sum_of_mem (mem_map_of_mem member)
    rw [Span.apart_iff]
    simp only
    omega

namespace Arena

def mixedRequests : List ArenaRequest :=
  [⟨false, 5⟩, ⟨true, 16⟩, ⟨false, 2000⟩, ⟨true, 3⟩, ⟨false, 1024⟩]

theorem arena_allocations_mixed :
    ((Arena.serveAll .behind {} mixedRequests).1.map Allocation.span).Pairwise Span.Apart ∧
      (mixedRequests.map ArenaRequest.bytes).sum ≤
        (Arena.serveAll .behind {} mixedRequests).2.memoryUsage := by
  obtain ⟨-, apart, -, -, covered⟩ :=
    arena_allocations .behind mixedRequests (by decide) (by decide)
  exact ⟨apart, covered⟩

end Arena

end Bitdb
