import Bitdb.Common.Json.SoundnessProperties

/-! The texts that the parser does not come to the end of. A comment without a newline takes it back
to the beginning of the text. -/

set_option autoImplicit false

namespace Bitdb.Json

open Base (Halt Ends Follows Approximates Suffices ok_ne_error thrown_ne_unfinished)

section Comments

variable {str : List Byte} {free : Halt ParseError → Prop}
  {allowed : Halt ParseError → Halt ParseError → Prop}

theorem skipLines_approximates (missing : Place → Parsed Nat) {turns more : Nat}
    (fewer : turns ≤ more) (place : Place) (idx : Nat) :
    Approximates (skipLines str missing place turns idx)
      (skipLines str missing place more idx) := by
  induction turns generalizing more idx with
  | zero => exact .free _ rfl
  | succ turns ih =>
    obtain ⟨less, rfl⟩ : ∃ less, more = less + 1 := ⟨more - 1, by omega⟩
    rw [skipLines, skipLines]
    refine (Follows.refl fun _ _ => rfl).bind fun next => ?_
    split
    · exact ih (by omega) _
    · exact .returns _

/-- How `SkipComment` goes on behind a comment without a newline. -/
def restart (str : List Byte) (place : Place) (turns : Nat) : Parsed Nat :=
  if compare str (skipSpaces str 0) commentText then
    skipLines str rewind place turns (skipSpaces str 0)
  else .ok (skipSpaces str 0)

theorem restart_approximates {turns more : Nat} (fewer : turns ≤ more) (place : Place) :
    Approximates (restart str place turns) (restart str place more) := by
  rw [restart, restart]
  split
  · exact skipLines_approximates rewind fewer place _
  · exact .returns _

theorem nextLine_rewind (place other : Place) (idx : Nat) :
    nextLine str rewind place idx = nextLine str rewind other idx := by
  rw [nextLine, nextLine]
  split
  next pos found =>
    have inside := Nat.ne_of_lt (find_some found).2
    rw [if_neg inside, if_neg inside]
  next => rfl

theorem skipLines_rewind (place other : Place) (turns idx : Nat) :
    skipLines str rewind place turns idx = skipLines str rewind other turns idx := by
  induction turns generalizing idx with
  | zero => rfl
  | succ turns ih =>
    rw [skipLines, skipLines, nextLine_rewind place other]
    simp only [ih]

theorem restart_place (place other : Place) (turns : Nat) :
    restart str place turns = restart str other turns := by
  rw [restart, restart, skipLines_rewind place other]

/-- The parser of the source against the one that rejects a comment without a newline. Behind
such a comment it goes on with the turns that are left. -/
theorem skipLines_rewinds (keeps : KeepsQuiet allowed) {turns more : Nat}
    (enough : Suffices free turns more) (place : Place) (idx : Nat) :
    skipLines str reject place turns idx = reject place ∧ (∃ left < more, more ≤ turns + left ∧
        skipLines str rewind place more idx = restart str place left) ∨
    skipLines str reject place turns idx ≠ reject place ∧
      Follows free allowed (skipLines str reject place turns idx)
        (skipLines str rewind place more idx) := by
  induction turns generalizing more idx with
  | zero =>
    exact .inr ⟨(thrown_ne_unfinished _).symm, enough.zero keeps.unfinished
      (fun more => skipLines str rewind place more idx) rfl⟩
  | succ turns ih =>
    obtain ⟨less, rfl, fuel⟩ := enough.succ
    rw [skipLines, skipLines]
    cases found : find str newline idx with
    | none =>
      rw [nextLine, nextLine, found]
      exact .inl ⟨rfl, less, Nat.lt_succ_self less, by omega, rfl⟩
    | some pos =>
      have next (missing : Place → Parsed Nat) :
          nextLine str missing place idx = .ok (pos + 1) := by
        rw [nextLine, found]
        exact if_neg (Nat.ne_of_lt (find_some found).2)
      rw [next, next]
      simp only [bind, Except.bind]
      by_cases comment : compare str (skipSpaces str (pos + 1)) commentText = true
      · rw [if_pos comment, if_pos comment]
        rcases ih fuel (skipSpaces str (pos + 1)) with
          ⟨rejected, left, fewer, covers, same⟩ | follows
        · exact .inl ⟨rejected, left, Nat.lt_succ_of_lt fewer, by omega, same⟩
        · exact .inr follows
      · rw [if_neg comment, if_neg comment]
        exact .inr ⟨ok_ne_error _ _, .returns _⟩

end Comments

namespace Parser

variable {Double : Type}

section Growth

variable {str : List Byte} {strtof64 : List Byte → Double} {missing : Place → Parsed Nat}

variable {turns more : Nat} (fewer : turns ≤ more)

include fewer

theorem getNextToken_approximates (place : Place) (idx : Nat) :
    Approximates ((Parser.mk str strtof64 missing turns).getNextToken place idx)
      ((Parser.mk str strtof64 missing more).getNextToken place idx) := by
  simp only [getNextToken, skipComment]
  split
  · exact .stops rfl
  · split
    · exact skipLines_approximates missing fewer place _
    · exact .returns _

theorem tracks_approximates :
    Tracks (· = .unfinished) Eq (Parser.mk str strtof64 missing turns)
      (Parser.mk str strtof64 missing more) False 0 where
  str := rfl
  strtof64 := rfl
  turns := .inr ⟨fewer, rfl⟩
  keeps _ _ := rfl
  tokens place idx := .inl (getNextToken_approximates fewer place idx)
  opens := False.elim
  separator := False.elim

theorem parse_approximates {depth deeper : Nat} (less : depth ≤ deeper) (idx : Nat) :
    Approximates ((Parser.mk str strtof64 missing turns).parse depth idx)
      ((Parser.mk str strtof64 missing more).parse deeper idx) := by
  induction depth generalizing deeper idx with
  | zero => exact .free _ rfl
  | succ depth ih =>
    obtain ⟨below, rfl⟩ : ∃ below, deeper = below + 1 := ⟨deeper - 1, by omega⟩
    exact parse_follows (tracks_approximates fewer) (fun idx => ih (by omega) idx) False.elim
      False.elim idx

end Growth

section Rewinding

abbrev checked (str : List Byte) (strtof64 : List Byte → Double) (turns : Nat) : Parser Double :=
  ⟨str, strtof64, reject, turns⟩

abbrev rewinding (str : List Byte) (strtof64 : List Byte → Double) (turns : Nat) : Parser Double :=
  ⟨str, strtof64, rewind, turns⟩

variable {str : List Byte} {strtof64 : List Byte → Double} {free : Halt ParseError → Prop}
  {allowed : Halt ParseError → Halt ParseError → Prop} {start : Nat}

theorem getNextToken_rewinds (keeps : KeepsQuiet allowed) {turns more : Nat}
    (enough : Suffices free turns more) (place : Place) (idx : Nat) :
    (checked str strtof64 turns).getNextToken place idx = reject place ∧
      (∃ left < more, more ≤ turns + left ∧
        (rewinding str strtof64 more).getNextToken place idx = restart str place left) ∨
    (checked str strtof64 turns).getNextToken place idx ≠ reject place ∧
      Follows free allowed ((checked str strtof64 turns).getNextToken place idx)
        ((rewinding str strtof64 more).getNextToken place idx) := by
  simp only [getNextToken, skipComment]
  by_cases outside : str.length ≤ skipSpaces str idx
  · simp only [if_pos outside]
    exact .inr ⟨quiet_thrown rfl place, keeps.refl (quiet_thrown rfl)⟩
  · simp only [if_neg outside]
    by_cases comment : compare str (skipSpaces str idx) commentText = true
    · simp only [if_pos comment]
      exact skipLines_rewinds keeps enough place _
    · simp only [if_neg comment]
      exact .inr ⟨ok_ne_error _ _, .returns _⟩

theorem getNextToken_eq {turns : Nat}
    (found : (checked str strtof64 turns).getNextToken .value 0 ≠ reject .value) :
    (rewinding str strtof64 turns).getNextToken .value 0 =
      (checked str strtof64 turns).getNextToken .value 0 := by
  have keeps : KeepsQuiet Eq := fun _ _ => rfl
  rcases getNextToken_rewinds keeps (.inl rfl) .value 0 with ⟨rejected, -⟩ | ⟨-, follows⟩
  · exact absurd rejected found
  · exact follows.eq.symm

section

variable {turns : Nat} (found : (checked str strtof64 turns).getNextToken .value 0 = .ok start)

include found

theorem restart_of_getNextToken (place : Place) (left : Nat) :
    (restart str place left = .error .unfinished ∨ restart str place left = .ok start) ∧
      (turns ≤ left → restart str place left = .ok start) := by
  have same := @getNextToken_eq Double str strtof64 turns (by rw [found]; exact ok_ne_error _ _)
  have restarted : restart str .value turns = .ok start := by
    rw [found, getNextToken] at same
    split at same
    · cases same
    · exact same
  have approximates {first second : Nat} (fewer : first ≤ second) :=
    @restart_approximates str first second fewer .value
  rw [restart_place place .value]
  constructor
  · rcases Nat.le_total left turns with less | more
    · exact (approximates less).eq_or.imp_right fun same => same.trans restarted
    · refine .inr ?_
      rw [← restarted]
      exact ((approximates more).eq_or.resolve_left (by rw [restarted]; exact ok_ne_error _ _)).symm
  · intro more
    rw [← restarted]
    exact ((approximates more).eq_or.resolve_left (by rw [restarted]; exact ok_ne_error _ _)).symm

theorem getNextToken_zero (more : Nat) :
    (rewinding str strtof64 more).getNextToken .value 0 = .error .unfinished ∨
      (rewinding str strtof64 more).getNextToken .value 0 = .ok start := by
  have inside : ¬ str.length ≤ skipSpaces str 0 := by
    intro outside
    rw [getNextToken, if_pos outside] at found
    cases found
  rw [getNextToken, if_neg inside]
  exact (restart_of_getNextToken found .value more).1

end

theorem getNextToken_unfinished {turns : Nat}
    (rejected : (checked str strtof64 turns).getNextToken .value 0 = reject .value) (more : Nat) :
    (rewinding str strtof64 more).getNextToken .value 0 = .error .unfinished := by
  have inside : ¬ str.length ≤ skipSpaces str 0 := by
    intro outside
    rw [getNextToken, if_pos outside] at rejected
    cases rejected
  have restarts (left : Nat) : (rewinding str strtof64 left).getNextToken .value 0 =
      restart str .value left := if_neg inside
  have settled (other : Nat) :
      (checked str strtof64 other).getNextToken .value 0 = .error .unfinished ∨
        (checked str strtof64 other).getNextToken .value 0 = reject .value := by
    rw [← rejected]
    exact Approximates.eq_of_ended (getNextToken_approximates (Nat.le_max_left other turns) _ _)
      (getNextToken_approximates (Nat.le_max_right other turns) _ _)
      (by rw [rejected]; exact thrown_ne_unfinished _)
  -- Each time round there are fewer turns left.
  induction more using Nat.strongRecOn with
  | _ more ih =>
    rcases settled more with unfinished | again
    · rw [getNextToken_eq (by rw [unfinished]; exact (thrown_ne_unfinished _).symm), unfinished]
    · have keeps : KeepsQuiet Eq := fun _ _ => rfl
      rcases @getNextToken_rewinds Double str strtof64 (fun _ => False) Eq keeps more more
        (.inl rfl) .value 0 with ⟨-, left, fewer, -, same⟩ | ⟨found, -⟩
      · rw [same, ← restarts]
        exact ih left fewer
      · exact absurd again found

theorem tracks_rewinds (keeps : KeepsQuiet allowed) {turns more : Nat}
    (enough : Suffices free turns more)
    (opens : charAt str start = leftBracket ∨ charAt str start = leftBrace)
    (restarts : ∀ place left, more ≤ turns + left → restart str place left = .ok start ∨
      restart str place left = .error .unfinished ∧
        Follows free allowed (reject place) (.error .unfinished))
    (separator : ∀ error, free (.thrown (.invalidComment .separator)) ∨
      allowed (.thrown (.invalidComment .separator)) (.thrown error)) :
    Tracks free allowed (checked str strtof64 turns) (rewinding str strtof64 more) True start where
  str := rfl
  strtof64 := rfl
  turns := enough
  keeps := keeps
  tokens place idx := by
    rcases getNextToken_rewinds keeps enough place idx with
      ⟨rejected, left, -, covers, same⟩ | ⟨-, follows⟩
    · rcases restarts place left covers with back | ⟨unfinished, follows⟩
      · exact .inr ⟨trivial, rejected, same.trans back⟩
      · rw [rejected, same, unfinished]
        exact .inl follows
    · exact .inl follows
  opens _ := opens
  separator _ := separator

theorem parseToken_eq {first second : Parser Double} {idx : Nat}
    (firstParse secondParse : Nat → Parsed (JObject Double × Nat)) (same : second.str = first.str)
    (double : second.strtof64 = first.strtof64) (turns : second.turns = first.turns)
    (closed : ¬ (charAt first.str idx = leftBracket ∨ charAt first.str idx = leftBrace)) :
    second.parseToken secondParse idx = first.parseToken firstParse idx := by
  obtain ⟨bracket, brace⟩ := not_or.mp closed
  have number : second.parseNumber idx = first.parseNumber idx := by
    rw [parseNumber, parseNumber, same, double]
  have string : second.parseString idx = first.parseString idx := by
    rw [parseString, parseString, same, turns]
  have null : second.parseNull idx = first.parseNull idx := by rw [parseNull, parseNull, same]
  have bool : second.parseBool idx = first.parseBool idx := by rw [parseBool, parseBool, same]
  simp only [parseToken, same, if_neg bracket, if_neg brace, null, bool, number, string]

theorem parseToken_quiet {parser : Parser Double} {idx : Nat}
    (parse : Nat → Parsed (JObject Double × Nat))
    (closed : ¬ (charAt parser.str idx = leftBracket ∨ charAt parser.str idx = leftBrace)) :
    Quiet (parser.parseToken parse idx) := by
  obtain ⟨bracket, brace⟩ := not_or.mp closed
  simp only [parseToken, if_neg bracket, if_neg brace]
  split
  · exact parseNull_quiet parser idx
  split
  · exact parseBool_quiet parser idx
  split
  · exact parseNumber_quiet parser idx
  split
  · exact parseString_quiet parser idx
  · exact quiet_thrown rfl

theorem getNextToken_opens {idx : Nat} (parser : Parser Double)
    (opens : charAt parser.str idx = leftBracket ∨ charAt parser.str idx = leftBrace)
    (place : Place) : parser.getNextToken place idx = .ok idx := by
  refine getNextToken_of_charAt ?_ ?_ ?_
  · rcases opens with opens | opens <;> rw [opens] <;> decide
  · rcases opens with opens | opens <;> rw [opens] <;> decide
  · rcases opens with opens | opens <;> rw [opens] <;> decide

theorem parse_opens {idx : Nat} (parser : Parser Double)
    (opens : charAt parser.str idx = leftBracket ∨ charAt parser.str idx = leftBrace)
    (depth : Nat) : parser.parse (depth + 1) idx = parser.parseToken (parser.parse depth) idx := by
  rw [parse, getNextToken_opens parser opens]
  rfl

/-- The stops that go together while the parser of the source does not end. -/
def EndlessPair (first second : Halt ParseError) : Prop :=
  first = second ∧ (∀ place, first ≠ .thrown (.invalidComment place)) ∨
    first = .thrown (.invalidComment .value) ∧ second = .unfinished

theorem unfinished_of_follows {first second : Parsed (JObject Double × Nat)}
    (follows : Follows (· = .thrown (.invalidComment .separator)) EndlessPair first second)
    (endless : first = .error .unfinished ∨
      first = .error (.thrown (.invalidComment .value))) : second = .error .unfinished := by
  cases follows with
  | returns value =>
    rcases endless with same | same
    · cases same
    · cases same
  | stops pair =>
    rcases pair with ⟨rfl, quiet⟩ | ⟨-, rfl⟩
    · rcases endless with unfinished | rejected
      · exact unfinished
      · exact absurd (Except.error.inj rejected) (quiet .value)
    · rfl
  | free _ separator =>
    subst separator
    rcases endless with same | same
    · cases same
    · cases same

section

variable {turns : Nat} (found : (checked str strtof64 turns).getNextToken .value 0 = .ok start)

include found

variable (opens : charAt str start = leftBracket ∨ charAt str start = leftBrace)

include opens

theorem tracks_endless (fuel : Nat) :
    Tracks (· = .thrown (.invalidComment .separator)) EndlessPair (checked str strtof64 fuel)
      (rewinding str strtof64 fuel) True start := by
  refine tracks_rewinds (fun stop quiet => .inl ⟨rfl, quiet⟩) (.inl rfl) opens ?_
    (fun _ => .inl rfl)
  intro place left _
  rcases (restart_of_getNextToken found place left).1 with unfinished | back
  · refine .inr ⟨unfinished, ?_⟩
    cases place with
    | value => exact .stops (.inr ⟨rfl, rfl⟩)
    | separator => exact .free _ rfl
  · exact .inl back

theorem parse_start_unfinished {depth : Nat}
    (rejected : (checked str strtof64 turns).parse depth start =
      .error (.thrown (.invalidComment .value))) (fuel level : Nat) :
    (rewinding str strtof64 fuel).parse level start = .error .unfinished ∧
      ∀ idx, Follows (· = .thrown (.invalidComment .separator)) EndlessPair
        ((checked str strtof64 fuel).parse level idx)
        ((rewinding str strtof64 fuel).parse level idx) := by
  have tracks := tracks_endless found opens fuel
  have first (parser : Parser Double) (same : parser.str = str) (level : Nat) :
      parser.parse (level + 1) start = parser.parseToken (parser.parse level) start :=
    parse_opens parser (same ▸ opens) level
  have settled (level : Nat) : (checked str strtof64 fuel).parse level start = .error .unfinished ∨
      (checked str strtof64 fuel).parse level start =
        .error (.thrown (.invalidComment .value)) := by
    rw [← rejected]
    exact Approximates.eq_of_ended
      (parse_approximates (Nat.le_max_left fuel turns) (Nat.le_max_left level depth) start)
      (parse_approximates (Nat.le_max_right fuel turns) (Nat.le_max_right level depth) start)
      (by rw [rejected]; exact thrown_ne_unfinished _)
  induction level with
  | zero => exact ⟨rfl, fun _ => .stops tracks.keeps.unfinished⟩
  | succ level ih =>
    have again : True → Again (· = .thrown (.invalidComment .separator)) EndlessPair
        ((rewinding str strtof64 fuel).parse level start) :=
      fun _ => .inr ⟨.inr ⟨rfl, rfl⟩, ih.1⟩
    have token := parseToken_follows tracks ih.2 again start
    rw [← first _ rfl, ← first _ rfl] at token
    have unfinished : (rewinding str strtof64 fuel).parse (level + 1) start =
        .error .unfinished := unfinished_of_follows token (settled (level + 1))
    refine ⟨unfinished, parse_follows tracks ih.2 again fun _ => .inr ⟨.inr ⟨rfl, rfl⟩, ?_⟩⟩
    rw [← first _ rfl]
    exact unfinished

end

theorem parse_unfinished {turns depth : Nat}
    (rejected : (checked str strtof64 turns).parse depth 0 =
      .error (.thrown (.invalidComment .value))) (fuel : Nat) :
    (rewinding str strtof64 fuel).parse fuel 0 = .error .unfinished := by
  cases depth with
  | zero => cases rejected
  | succ depth =>
    cases fuel with
    | zero => rfl
    | succ fuel =>
      rw [parse] at rejected ⊢
      cases found : (checked str strtof64 turns).getNextToken .value 0 with
      | error stop =>
        rw [found] at rejected
        cases rejected
        rw [getNextToken_unfinished found]
        rfl
      | ok start =>
        rw [found] at rejected
        have opens : charAt str start = leftBracket ∨ charAt str start = leftBrace := by
          by_contra closed
          exact parseToken_quiet _ closed _ rejected
        have atStart (parser : Parser Double) (same : parser.str = str) (level : Nat) :
            parser.parse (level + 1) start = parser.parseToken (parser.parse level) start :=
          parse_opens parser (same ▸ opens) level
        have ended := (parse_start_unfinished found opens
          ((atStart _ rfl depth).trans rejected) (fuel + 1) (fuel + 1)).1
        rcases getNextToken_zero found (fuel + 1) with unfinished | same
        · rw [unfinished]
          rfl
        · rw [same]
          exact (atStart _ rfl fuel).symm.trans ended

/-- The stops that go together while the parser of the source ends. -/
def ThrowingPair (first second : Halt ParseError) : Prop :=
  first = second ∨ first = .thrown (.invalidComment .separator) ∧ ∃ error, second = .thrown error

theorem settled_of_follows {first second : Parsed (JObject Double × Nat)}
    (follows : Follows (fun stop => stop = .unfinished ∨ stop = .thrown (.invalidComment .value))
      ThrowingPair first second) (ended : first ≠ .error .unfinished)
    (accepted : first ≠ .error (.thrown (.invalidComment .value))) :
    Ends (fun result => first = .ok result) second := by
  cases follows with
  | returns value => rfl
  | @stops stop _ pair =>
    rcases pair with rfl | ⟨-, error, rfl⟩
    · cases stop with
      | thrown error => trivial
      | unfinished => exact absurd rfl ended
    · trivial
  | free _ stopped =>
    rcases stopped with rfl | rfl
    · exact absurd rfl ended
    · exact absurd rfl accepted

theorem parse_follows_rewinding {turns : Nat}
    (found : (checked str strtof64 turns).getNextToken .value 0 = .ok start)
    (opens : charAt str start = leftBracket ∨ charAt str start = leftBrace) (depth idx : Nat) :
    Follows (fun stop => stop = .unfinished ∨ stop = .thrown (.invalidComment .value)) ThrowingPair
      ((checked str strtof64 turns).parse depth idx)
      ((rewinding str strtof64 (turns + turns)).parse depth idx) := by
  have tracks : Tracks (fun stop => stop = .unfinished ∨ stop = .thrown (.invalidComment .value))
      ThrowingPair (checked str strtof64 turns) (rewinding str strtof64 (turns + turns)) True
      start := by
    refine tracks_rewinds (fun _ _ => .inl rfl) (.inr ⟨by omega, .inl rfl⟩) opens ?_
      (fun error => .inr (.inr ⟨rfl, error, rfl⟩))
    intro place left covers
    exact .inl ((restart_of_getNextToken found place left).2 (by omega))
  induction depth generalizing idx with
  | zero => exact .stops (.inl rfl)
  | succ depth ih =>
    exact parse_follows tracks ih (fun _ => .inl (.inr rfl)) (fun _ => .inl (.inr rfl)) idx

/-- Unless a value begins with a comment without a newline, the parser of the source does what the
other one does, or throws with it. -/
theorem parse_follows_checked {turns depth : Nat}
    (accepted : (checked str strtof64 turns).parse depth 0 ≠
      .error (.thrown (.invalidComment .value))) :
    ∃ more, Follows (fun stop => stop = .unfinished ∨ stop = .thrown (.invalidComment .value))
      ThrowingPair ((checked str strtof64 turns).parse depth 0)
      ((rewinding str strtof64 more).parse depth 0) := by
  cases depth with
  | zero => exact ⟨turns, .stops (.inl rfl)⟩
  | succ level =>
    cases found : (checked str strtof64 turns).getNextToken .value 0 with
    | error stop =>
      have same : (rewinding str strtof64 turns).getNextToken .value 0 = .error stop := by
        rw [← found]
        refine getNextToken_eq fun rejected => accepted ?_
        rw [parse, rejected]
        rfl
      refine ⟨turns, ?_⟩
      rw [parse, parse, found, same]
      exact .stops (.inl rfl)
    | ok start =>
      by_cases opens : charAt str start = leftBracket ∨ charAt str start = leftBrace
      · exact ⟨turns + turns, parse_follows_rewinding found opens (level + 1) 0⟩
      · have same : (rewinding str strtof64 turns).getNextToken .value 0 = .ok start := by
          rw [← found]
          exact getNextToken_eq (by rw [found]; exact ok_ne_error _ _)
        refine ⟨turns, ?_⟩
        rw [parse, parse, found, same]
        simp only [bind, Except.bind]
        rw [@parseToken_eq Double (checked str strtof64 turns) (rewinding str strtof64 turns) start
          ((checked str strtof64 turns).parse level) _ rfl rfl rfl opens]
        exact .refl fun _ _ => .inl rfl

end Rewinding

section FromString

variable (strtof64 : List Byte → Double) {content : List Byte}

theorem fromString_eq_error_iff {missing : Place → Parsed Nat} {fuel : Nat}
    {stop : Halt ParseError} :
    fromString strtof64 missing fuel content = .error stop ↔
      (Parser.mk (trimRight content) strtof64 missing fuel).parse fuel 0 = .error stop := by
  rw [fromString]
  cases (Parser.mk (trimRight content) strtof64 missing fuel).parse fuel 0 with
  | ok value => exact iff_of_false (ok_ne_error _ _) (ok_ne_error _ _)
  | error other =>
    exact ⟨fun same => congrArg _ (Except.error.inj same),
      fun same => congrArg _ (Except.error.inj same)⟩

theorem fromString_unfinished {fuel : Nat} (rejected : fromString strtof64 reject fuel content =
      .error (.thrown (.invalidComment .value))) (more : Nat) :
    fromString strtof64 rewind more content = .error .unfinished :=
  (fromString_eq_error_iff strtof64).mpr
    (parse_unfinished ((fromString_eq_error_iff strtof64).mp rejected) more)

theorem checked_ends (content : List Byte) :
    Ends ((checked (trimRight content) strtof64 ((trimRight content).length + 1)).ReadsValue 0)
      ((checked (trimRight content) strtof64 ((trimRight content).length + 1)).parse
        ((trimRight content).length + 1) 0) := by
  refine parse_ends (Nat.lt_succ_self _) rfl (Nat.zero_le _) ?_
  rw [Nat.zero_add]
  exact Nat.lt_succ_self _

theorem settled_of_accepted
    (accepted : fromString strtof64 reject ((trimRight content).length + 1) content ≠
      .error (.thrown (.invalidComment .value))) :
    ∃ more, Ends (fun result =>
        (checked (trimRight content) strtof64 ((trimRight content).length + 1)).parse
          ((trimRight content).length + 1) 0 = .ok result)
      ((rewinding (trimRight content) strtof64 more).parse ((trimRight content).length + 1) 0) := by
  rw [Ne, fromString_eq_error_iff] at accepted
  obtain ⟨more, follows⟩ := parse_follows_checked accepted
  exact ⟨more, settled_of_follows follows (checked_ends strtof64 content).ne_unfinished accepted⟩

theorem fromString_ends (accepted : ∀ fuel, fromString strtof64 reject fuel content ≠
      .error (.thrown (.invalidComment .value))) :
    ∃ fuel, fromString strtof64 rewind fuel content ≠ .error .unfinished := by
  obtain ⟨more, settled⟩ := settled_of_accepted strtof64 (accepted _)
  refine ⟨max more ((trimRight content).length + 1), fun unfinished => settled.ne_unfinished ?_⟩
  rw [fromString_eq_error_iff] at unfinished
  rw [← unfinished]
  exact (parse_approximates (Nat.le_max_left _ _) (Nat.le_max_right _ _) 0).eq_or.resolve_left
    settled.ne_unfinished

/-- Parsing ends exactly if the parser that rejects a comment without a newline, which always
ends, finds none where a value may begin. -/
theorem fromString_terminates_iff (content : List Byte) :
    (∃ fuel, fromString strtof64 reject fuel content ≠ .error .unfinished) ∧
    ((∃ fuel, fromString strtof64 rewind fuel content ≠ .error .unfinished) ↔
      ∀ fuel, fromString strtof64 reject fuel content ≠
        .error (.thrown (.invalidComment .value))) := by
  have ended := (checked_ends strtof64 content).ne_unfinished
  refine ⟨⟨_, mt (fromString_eq_error_iff strtof64).mp ended⟩, ?_, fromString_ends strtof64⟩
  rintro ⟨more, ended⟩ fuel rejected
  exact ended (fromString_unfinished strtof64 rejected more)

/-- A comment that is all there is, and one in a list. -/
theorem fromString_endless_comment :
    (∀ fuel, fromString (fun _ => ()) rewind fuel [47, 47] = .error .unfinished) ∧
      ∀ fuel, fromString (fun _ => ()) rewind fuel [leftBracket, 47, 47] = .error .unfinished :=
  ⟨@fromString_unfinished Unit _ [47, 47] 2 rfl,
    @fromString_unfinished Unit _ [leftBracket, 47, 47] 3 rfl⟩

end FromString

end Parser

end Bitdb.Json
