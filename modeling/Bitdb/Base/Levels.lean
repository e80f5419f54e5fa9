import Mathlib.Data.List.Induction
import Mathlib.Data.List.Nodup

/-! Items of different heights in a row. At every level the items that reach above it are linked,
each of them to the next one. -/

set_option autoImplicit false

namespace Bitdb.Base

open List

structure Item (ι π : Type) where
  name : ι
  height : Nat
  content : π
  deriving DecidableEq, Repr

namespace Levels

variable {ι π : Type}

def successor (items : List (Item ι π)) (level : Nat) : Option ι :=
  (items.find? fun item => level < item.height).map Item.name

/-- The last item that reaches above a level, or `first`. -/
def lastAbove (level : Nat) (first : Item ι π) (items : List (Item ι π)) : Item ι π :=
  items.foldl (fun last item => if level < item.height then item else last) first

theorem successor_cons (item : Item ι π) (later : List (Item ι π)) (level : Nat) :
    successor (item :: later) level =
      if level < item.height then some item.name else successor later level := by
  unfold successor
  by_cases above : level < item.height
  · simp [above]
  · simp [above]

variable {front items : List (Item ι π)} {level : Nat} {first : Item ι π}

theorem successor_append_of_low (low : ∀ item ∈ front, item.height ≤ level)
    (later : List (Item ι π)) : successor (front ++ later) level = successor later level := by
  induction front with
  | nil => rfl
  | cons item front ih =>
    have here : ¬ level < item.height := Nat.not_lt.mpr (low item mem_cons_self)
    rw [cons_append, successor_cons, if_neg here]
    exact ih fun other member => low other (mem_cons_of_mem _ member)

theorem successor_eq_none : successor items level = none ↔ ∀ item ∈ items, item.height ≤ level := by
  simp [successor]

theorem successor_append_of_isSome (found : successor front level ≠ none)
    (later : List (Item ι π)) : successor (front ++ later) level = successor front level := by
  induction front with
  | nil => exact absurd rfl found
  | cons item front ih =>
    rw [cons_append, successor_cons, successor_cons]
    rw [successor_cons] at found
    split at found
    next above => rw [if_pos above, if_pos above]
    next low => rw [if_neg low, if_neg low, ih found]

theorem lastAbove_cons (level : Nat) (first item : Item ι π) (items : List (Item ι π)) :
    lastAbove level first (item :: items) =
      lastAbove level (if level < item.height then item else first) items := rfl

theorem lastAbove_concat (level : Nat) (first item : Item ι π) (items : List (Item ι π)) :
    lastAbove level first (items ++ [item]) =
      if level < item.height then item else lastAbove level first items := by
  rw [lastAbove, foldl_append]
  rfl

theorem lastAbove_of_low (low : ∀ item ∈ items, item.height ≤ level) (first : Item ι π) :
    lastAbove level first items = first := by
  induction items with
  | nil => rfl
  | cons item items ih =>
    have here : ¬ level < item.height := Nat.not_lt.mpr (low item mem_cons_self)
    rw [lastAbove_cons, if_neg here]
    exact ih fun other member => low other (mem_cons_of_mem _ member)

/-- Behind the last item that reaches above a level, a search at a lower level goes on as from
the first item. -/
theorem lastAbove_split (level : Nat) (first : Item ι π) (items : List (Item ι π)) :
    ∃ passed rest, first :: items = passed ++ lastAbove level first items :: rest ∧
      (∀ item ∈ rest, item.height ≤ level) ∧
      ∀ lower ≤ level, lastAbove lower (lastAbove level first items) rest =
        lastAbove lower first items := by
  induction items using List.reverseRecOn with
  | nil => exact ⟨[], [], rfl, by rintro _ ⟨⟩, fun _ _ => rfl⟩
  | append_singleton items item ih =>
    obtain ⟨passed, rest, split, low, same⟩ := ih
    rw [lastAbove_concat]
    by_cases above : level < item.height
    · rw [if_pos above]
      refine ⟨first :: items, [], rfl, by rintro _ ⟨⟩, fun lower below => ?_⟩
      rw [lastAbove_concat, if_pos (by omega)]
      rfl
    · rw [if_neg above]
      refine ⟨passed, rest ++ [item], ?_, fun other member => ?_, fun lower below => ?_⟩
      · rw [← cons_append, split, append_assoc, cons_append]
      · rcases mem_append.mp member with earlier | last
        · exact low other earlier
        · rw [mem_singleton.mp last]
          exact Nat.not_lt.mp above
      · rw [lastAbove_concat, lastAbove_concat, same lower below]

variable {item : Item ι π} {passed : List (Item ι π)}

section

variable {rest : List (Item ι π)} (split : first :: items = passed ++ item :: rest)

include split

theorem suffix_of_split : rest <:+ items := by
  cases passed with
  | nil =>
    obtain ⟨rfl, rfl⟩ := List.cons.inj split
    exact suffix_rfl
  | cons head passed =>
    rw [cons_append] at split
    obtain ⟨rfl, rfl⟩ := List.cons.inj split
    exact ⟨passed ++ [item], by rw [append_assoc, singleton_append]⟩

theorem lastAbove_eq (above : level < item.height) (low : ∀ other ∈ rest, other.height ≤ level) :
    lastAbove level first items = item := by
  cases passed with
  | nil =>
    obtain ⟨rfl, rfl⟩ := List.cons.inj split
    exact lastAbove_of_low low first
  | cons head passed =>
    rw [cons_append] at split
    obtain ⟨rfl, rfl⟩ := List.cons.inj split
    rw [lastAbove, foldl_append, foldl_cons, if_pos above]
    exact lastAbove_of_low low item

end

theorem lastAbove_mem (level : Nat) (first : Item ι π) (items : List (Item ι π)) :
    lastAbove level first items ∈ first :: items := by
  obtain ⟨passed, rest, split, _⟩ := lastAbove_split level first items
  rw [split]
  simp

theorem lt_height_lastAbove {upper : Nat} (items : List (Item ι π)) (below : level ≤ upper)
    (high : level < first.height) : level < (lastAbove upper first items).height := by
  induction items using List.reverseRecOn with
  | nil => exact high
  | append_singleton items item ih =>
    rw [lastAbove_concat]
    split
    next above => omega
    next => exact ih

theorem lastAbove_eq_getLast (high : ∀ item ∈ items, level < item.height) (first : Item ι π) :
    lastAbove level first items = items.getLast?.getD first := by
  induction items using List.reverseRecOn with
  | nil => rfl
  | append_singleton items item ih =>
    rw [lastAbove_concat, if_pos (high item (by simp)), List.getLast?_concat]
    rfl

variable [DecidableEq ι]

def links : List (Item ι π) → ι → Nat → Option ι
  | [], _, _ => none
  | item :: later, name, level =>
    if name = item.name then successor later level else links later name level

theorem links_append {name : ι} (absent : name ∉ front.map Item.name) (later : List (Item ι π))
    (level : Nat) : links (front ++ later) name level = links later name level := by
  induction front with
  | nil => rfl
  | cons item front ih =>
    rw [map_cons, mem_cons, not_or] at absent
    rw [cons_append, links, if_neg absent.1, ih absent.2]

theorem links_split {later : List (Item ι π)} (distinct : (items.map Item.name).Nodup)
    (split : items = passed ++ item :: later) (level : Nat) :
    links items item.name level = successor later level := by
  subst split
  have absent : item.name ∉ passed.map Item.name := by
    intro member
    rw [map_append, map_cons, nodup_middle, nodup_cons] at distinct
    exact distinct.1 (mem_append_left _ member)
  rw [links_append absent, links, if_pos rfl]

theorem links_insert {new : Item ι π} {back : List (Item ι π)}
    (distinct : ((first :: front ++ new :: back).map Item.name).Nodup)
    (member : item ∈ first :: front) (above : level < item.height) (reaches : level < new.height) :
    links (first :: front ++ new :: back) item.name level =
      if item.name = (lastAbove level first front).name then some new.name
      else links (first :: front ++ back) item.name level := by
  have shorter : ((first :: front ++ back).map Item.name).Nodup := by
    rw [map_append, map_cons (l := back), nodup_middle, nodup_cons] at distinct
    rw [map_append]
    exact distinct.2
  have only : ((first :: front).map Item.name).Nodup := by
    rw [map_append] at shorter
    exact shorter.of_append_left
  obtain ⟨passed, mid, split⟩ := append_of_mem member
  have old : links (first :: front ++ back) item.name level = successor (mid ++ back) level :=
    links_split shorter (by rw [split, append_assoc, cons_append]) level
  have now : links (first :: front ++ new :: back) item.name level =
      successor (mid ++ new :: back) level :=
    links_split distinct (by rw [split, append_assoc, cons_append]) level
  rw [old, now]
  by_cases low : successor mid level = none
  · have behind := successor_eq_none.mp low
    rw [lastAbove_eq split above behind, if_pos rfl, successor_append_of_low behind,
      successor_cons, if_pos reaches]
  · obtain ⟨before, rest, other, behind, _⟩ := lastAbove_split level first front
    have different : item.name ≠ (lastAbove level first front).name := by
      intro same
      have here := links_split only split level
      rw [same, links_split only other level] at here
      exact low (here.symm.trans (successor_eq_none.mpr behind))
    rw [if_neg different, successor_append_of_isSome low, successor_append_of_isSome low]

theorem links_lastAbove {back : List (Item ι π)}
    (distinct : ((first :: front ++ back).map Item.name).Nodup) (level : Nat) :
    links (first :: front ++ back) (lastAbove level first front).name level =
      successor back level := by
  obtain ⟨passed, rest, split, low, _⟩ := lastAbove_split level first front
  have whole : first :: front ++ back = passed ++ lastAbove level first front :: (rest ++ back) := by
    rw [split, append_assoc, cons_append]
  rw [links_split distinct whole, successor_append_of_low low]

theorem links_low {new : Item ι π} (low : new.height ≤ level) (front back : List (Item ι π))
    {name : ι} (different : name ≠ new.name) :
    links (front ++ new :: back) name level = links (front ++ back) name level := by
  have skipped : ∀ mid : List (Item ι π),
      successor (mid ++ new :: back) level = successor (mid ++ back) level := by
    intro mid
    induction mid with
    | nil => rw [nil_append, successor_cons, if_neg (Nat.not_lt.mpr low), nil_append]
    | cons item mid ih => rw [cons_append, cons_append, successor_cons, successor_cons, ih]
  induction front with
  | nil => rw [nil_append, links, if_neg different, nil_append]
  | cons item front ih =>
    rw [cons_append, cons_append, links, links, skipped, ih]

theorem links_content (name : ι) (height : Nat) (old new : π) (front back : List (Item ι π)) :
    links (front ++ ⟨name, height, old⟩ :: back) = links (front ++ ⟨name, height, new⟩ :: back) := by
  have same : ∀ (mid : List (Item ι π)) level,
      successor (mid ++ ⟨name, height, old⟩ :: back) level =
        successor (mid ++ ⟨name, height, new⟩ :: back) level := by
    intro mid level
    induction mid with
    | nil => rw [nil_append, successor_cons, nil_append, successor_cons]
    | cons item mid ih => rw [cons_append, cons_append, successor_cons, successor_cons, ih]
  funext asked level
  induction front with
  | nil => rw [nil_append, links, nil_append, links]
  | cons item front ih =>
    rw [cons_append, cons_append, links, links, same, ih]

end Levels

end Bitdb.Base
