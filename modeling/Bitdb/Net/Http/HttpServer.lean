import Bitdb.Common.Json.Parser
import Bitdb.Net.Http.HttpRequest

/-! Receiving a request (`HttpServer::OnRequest` in `bitdb/net/http/http_server.cpp`). `AsyncRead`
returns what one successful `read` has stored, and nothing after that, so that a connection is the
list of its reads with empty reads behind. The length it returns is unsigned: it is never negative.
-/

set_option autoImplicit false

namespace Bitdb.Http

open Base StringUtils List HttpMessage

def maxRequestSize : Nat := 1024 * 64

inductive Fault where
  /-- The terminating NUL is written behind the allocated buffer. -/
  | bufferEnd
  /-- `Parse` has read past a split result. -/
  | splitEnd
  /-- `std::stoi` has found no number. -/
  | invalidArgument
  /-- `std::stoi` has found a number that is no `int`. -/
  | outOfRange
  deriving DecidableEq, Repr

def stoi (text : List Byte) : Except (Halt Fault) Int :=
  let text := text.dropWhile Json.isSpace
  let signed := text.head? = some 45 ∨ text.head? = some 43
  let digits := (if signed then text.tail else text).takeWhile Json.isDigit
  let magnitude : Nat := digits.foldl (fun value ch => value * 10 + (ch.toNat - 48)) 0
  let value : Int := if text.head? = some 45 then -magnitude else magnitude
  if digits.isEmpty then .error (.thrown .invalidArgument)
  else if -2 ^ 31 ≤ value ∧ value < 2 ^ 31 then .ok value
  else .error (.thrown .outOfRange)

/-- The C string at the start of the buffer, after `buffer[recv_len] = '\0'`. The buffer has been
shrunk to the bytes read, and `MAX_REQUEST_SIZE` bytes are allocated for it. -/
def terminated (bytes : List Byte) : Except (Halt Fault) (List Byte) :=
  if bytes.length < maxRequestSize then .ok (bytes.takeWhile (· ≠ 0))
  else .error (.thrown .bufferEnd)

/-- The loop that waits for the rest of the body. The length is converted to a `size_t`. -/
def receiveBody (contentLen : Int) :
    Nat → List (List Byte) → HttpRequest → Except (Halt Fault) HttpRequest
  | 0, _, _ => .error .unfinished
  | turns + 1, reads, request =>
    if (request.body.length : Int) ≠ contentLen % 2 ^ 64 then do
      let text ← terminated (reads.headD [])
      receiveBody contentLen turns reads.tail { request with body := request.body ++ text }
    else .ok request

/-- From the first read to the assembled request. -/
def receiveRequest : Nat → List (List Byte) → Except (Halt Fault) HttpRequest
  | 0, _ => .error .unfinished
  | turns + 1, reads =>
    let bytes := reads.headD []
    if bytes.isEmpty then receiveRequest turns reads.tail
    else do
      let text ← terminated bytes
      let request ← (parse {} text).elim (.error (.thrown .splitEnd)) .ok
      match request.headers (ascii "Content-Length") with
      | none => .ok request
      | some value => do
          let contentLen ← stoi value
          receiveBody contentLen turns reads.tail request

section Loop

def cString (bytes : List Byte) : List Byte := bytes.takeWhile (· ≠ 0)

def appended (reads : List (List Byte)) : List Byte := reads.flatMap cString

def Roomy (bytes : List Byte) : Prop := bytes.length < maxRequestSize

instance (bytes : List Byte) : Decidable (Roomy bytes) := inferInstanceAs (Decidable (_ < _))

variable {bytes : List Byte}

theorem terminated_of_roomy (roomy : Roomy bytes) : terminated bytes = .ok (cString bytes) :=
  if_pos roomy

theorem of_terminated {text : List Byte} (ended : terminated bytes = .ok text) :
    Roomy bytes ∧ text = cString bytes := by
  unfold terminated at ended
  split at ended
  case isTrue roomy => exact ⟨roomy, (Except.ok.inj ended).symm⟩
  case isFalse => cases ended

theorem length_cString_le (bytes : List Byte) : (cString bytes).length ≤ bytes.length :=
  ( takeWhile_prefix _).length_le

theorem cString_append_of_nul (nul : 0 ∈ bytes) (more : List Byte) :
    cString (bytes ++ more) = cString bytes := by
  induction bytes with
  | nil => cases nul
  | cons first bytes ih =>
    by_cases zero : first = 0
    · simp [cString, zero]
    · have later : 0 ∈ bytes := by simpa [Ne.symm zero] using nul
      simpa [cString, zero] using ih later

theorem cString_eq_iff : cString bytes = bytes ↔ 0 ∉ bytes := by
  rw [cString, takeWhile_eq_self_iff]
  constructor
  · intro nonzero nul
    simpa using nonzero 0 nul
  · intro free byte member
    rw [decide_eq_true_iff]
    rintro rfl
    exact free member

variable {reads : List (List Byte)} {request : HttpRequest}

theorem appended_of_no_nul (free : ∀ read ∈ reads, 0 ∉ read) : appended reads = reads.flatten := by
  induction reads with
  | nil => rfl
  | cons read reads ih =>
    obtain ⟨first, rest⟩ := forall_mem_cons.mp free
    simp only [appended, flatMap_cons, flatten_cons, cString_eq_iff.mpr first]
    rw [← ih rest, appended]

theorem length_appended_le (reads : List (List Byte)) :
    (appended reads).length ≤ reads.flatten.length := by
  induction reads with
  | nil => exact Nat.le_refl _
  | cons read reads ih =>
    have first := length_cString_le read
    simp only [appended, flatMap_cons, flatten_cons, length_append] at ih ⊢
    omega

theorem no_nul_of_length_appended (all : (appended reads).length = reads.flatten.length) :
    ∀ read ∈ reads, 0 ∉ read := by
  induction reads with
  | nil => simp
  | cons read reads ih =>
    have first := length_cString_le read
    have rest := length_appended_le reads
    simp only [appended, flatMap_cons, flatten_cons, length_append] at all rest ih
    refine forall_mem_cons.mpr ⟨cString_eq_iff.mp ?_, ih (by omega)⟩
    exact ( takeWhile_prefix _).eq_of_length (by rw [← cString]; omega)

variable {length : Nat}

variable (small : length < 2 ^ 31)

include small

theorem receiveBody_met (met : request.body.length = length) (turns : Nat)
    (reads : List (List Byte)) : receiveBody length (turns + 1) reads request = .ok request := by
  rw [receiveBody, if_neg (by omega)]

theorem receiveBody_step (notMet : request.body.length ≠ length) (turns : Nat)
    (reads : List (List Byte)) :
    receiveBody length (turns + 1) reads request = (do
      let text ← terminated (reads.headD [])
      receiveBody length turns reads.tail { request with body := request.body ++ text }) := by
  rw [receiveBody, if_pos (by omega)]

theorem receiveBody_exhausted (notMet : request.body.length ≠ length) (turns : Nat) :
    receiveBody length turns [] request = .error .unfinished := by
  induction turns with
  | zero => rfl
  | succ turns ih =>
    have nothing : ({ request with body := request.body ++ [] } : HttpRequest) = request := by
      rw [append_nil]
    have step : receiveBody length (turns + 1) [] request =
        receiveBody length turns [] { request with body := request.body ++ [] } :=
      receiveBody_step small notMet turns []
    rw [step, nothing, ih]

theorem of_receiveBody {turns : Nat} {result : HttpRequest}
    (returns : receiveBody length turns reads request = .ok result) :
    ∃ count ≤ reads.length, (∀ read ∈ reads.take count, Roomy read) ∧
      result = { request with body := request.body ++ appended (reads.take count) } ∧
      result.body.length = length := by
  induction turns generalizing reads request with
  | zero => cases returns
  | succ turns ih =>
    by_cases met : request.body.length = length
    · rw [receiveBody_met small met] at returns
      obtain rfl := Except.ok.inj returns
      exact ⟨0, Nat.zero_le _, by simp, by simp [appended], met⟩
    · rw [receiveBody_step small met] at returns
      cases ended : terminated (reads.headD []) with
      | error halt =>
        rw [ended] at returns
        cases returns
      | ok text =>
        rw [ended] at returns
        obtain ⟨roomy, rfl⟩ := of_terminated ended
        obtain ⟨count, within, roomyRest, result_eq, size⟩ := ih returns
        cases reads with
        | nil =>
          refine ⟨0, Nat.zero_le _, by simp, ?_, size⟩
          simpa [appended, cString] using result_eq
        | cons read reads =>
          refine ⟨count + 1, Nat.succ_le_succ within, ?_, ?_, size⟩
          · exact forall_mem_cons.mpr ⟨roomy, roomyRest⟩
          · simpa [appended, append_assoc] using result_eq

theorem receiveBody_returns {count : Nat} (within : count ≤ reads.length)
    (roomy : ∀ read ∈ reads.take count, Roomy read)
    (size : (request.body ++ appended (reads.take count)).length = length) :
    ∃ result, receiveBody length (count + 1) reads request = .ok result := by
  induction count generalizing reads request with
  | zero =>
    have met : request.body.length = length := by simpa [appended] using size
    exact ⟨request, receiveBody_met small met 0 reads⟩
  | succ count ih =>
    by_cases met : request.body.length = length
    · exact ⟨request, receiveBody_met small met (count + 1) reads⟩
    · cases reads with
      | nil => cases within
      | cons read reads =>
        obtain ⟨first, rest⟩ := forall_mem_cons.mp roomy
        have later : ({ request with body := request.body ++ cString read }.body ++
            appended (reads.take count)).length = length := by
          simpa [appended] using size
        obtain ⟨result, returns⟩ := ih (Nat.le_of_succ_le_succ within) rest later
        refine ⟨result, ?_⟩
        rw [receiveBody_step small met, headD_cons, terminated_of_roomy first]
        exact returns

end Loop

section Head

def numeral (digits : List Byte) : Nat :=
  digits.foldl (fun value ch => value * 10 + (ch.toNat - 48)) 0

theorem of_isDigit {ch : Byte} (digit : Json.isDigit ch = true) :
    Json.isSpace ch = false ∧ ch ≠ 45 ∧ ch ≠ 43 := by
  have least : 48 ≤ ch.toNat := UInt8.le_iff_toNat_le.mp (of_decide_eq_true digit).1
  refine ⟨decide_eq_false ?_, ?_, ?_⟩
  · rintro (rfl | ⟨-, most⟩)
    · exact absurd least (by decide)
    · have : ch.toNat ≤ 13 := UInt8.le_iff_toNat_le.mp most
      omega
  · rintro rfl
    exact absurd least (by decide)
  · rintro rfl
    exact absurd least (by decide)

theorem stoi_padded {digits : List Byte} (nonempty : digits ≠ [])
    (allDigits : ∀ ch ∈ digits, Json.isDigit ch) (before after : Nat) :
    stoi (List.replicate before 32 ++ digits ++ List.replicate after 32) =
      if numeral digits < 2 ^ 31 then .ok (numeral digits : Int)
      else .error (.thrown .outOfRange) := by
  obtain ⟨first, more, rfl⟩ := exists_cons_of_ne_nil nonempty
  obtain ⟨notSpace, notMinus, notPlus⟩ := of_isDigit (allDigits first mem_cons_self)
  have spaces : ∀ ch ∈ List.replicate before (32 : Byte), Json.isSpace ch = true := by
    intro ch member
    rw [eq_of_mem_replicate member]
    rfl
  have begins : (List.replicate before 32 ++ (first :: more) ++ List.replicate after 32).dropWhile
      Json.isSpace = first :: (more ++ List.replicate after 32) := by
    rw [append_assoc, dropWhile_append_of_pos spaces, cons_append,
      dropWhile_cons_of_neg (by simp [notSpace])]
  have ends : (List.replicate after (32 : Byte)).takeWhile Json.isDigit = [] := by
    cases after <;> rfl
  have digits : (first :: (more ++ List.replicate after 32)).takeWhile Json.isDigit =
      first :: more := by
    rw [← cons_append, takeWhile_append_of_pos allDigits, ends, append_nil]
  have positive : -2 ^ 31 ≤ (numeral (first :: more) : Int) := by omega
  have fits : (numeral (first :: more) : Int) < 2 ^ 31 ↔ numeral (first :: more) < 2 ^ 31 := by
    omega
  simp only [stoi, begins, List.head?_cons, Option.some.injEq, notMinus, notPlus, or_self, if_false,
    digits, isEmpty_cons, Bool.false_eq_true]
  rw [← numeral]
  simp only [positive, fits, true_and]

section FirstRead

variable {bytes : List Byte} (nonempty : bytes.isEmpty = false) (turns : Nat)
  (rest : List (List Byte))

include nonempty

theorem receiveRequest_of_not_roomy (full : ¬ Roomy bytes) :
    receiveRequest (turns + 1) (bytes :: rest) = .error (.thrown .bufferEnd) := by
  have ended : terminated bytes = .error (.thrown .bufferEnd) := if_neg full
  simp only [receiveRequest, headD_cons, nonempty, ended]
  rfl

theorem receiveRequest_of_parse_none (roomy : Roomy bytes)
    (fails : parse {} (cString bytes) = none) :
    receiveRequest (turns + 1) (bytes :: rest) = .error (.thrown .splitEnd) := by
  simp only [receiveRequest, headD_cons, nonempty, terminated_of_roomy roomy]
  simp only [bind, Except.bind, fails]
  rfl

theorem receiveRequest_of_parse (roomy : Roomy bytes) {request : HttpRequest}
    (read : parse {} (cString bytes) = some request) {value : List Byte}
    (field : request.headers (ascii "Content-Length") = some value) :
    receiveRequest (turns + 1) (bytes :: rest) = (do
      let contentLen ← stoi value
      receiveBody contentLen turns rest request) := by
  simp only [receiveRequest, headD_cons, nonempty, terminated_of_roomy roomy]
  simp only [bind, Except.bind, read, Option.elim_some, field]
  rfl

end FirstRead

def firstBody (first : List Byte) : List Byte :=
  (split (cString first) blankLine true).headD []

theorem splits_firstBody (first : List Byte) :
    ∃ others, Splits blankLine (cString first) (firstBody first :: others) := by
  obtain ⟨parts, splits⟩ := exists_splits blankLine_ne_nil (cString first)
  cases parts with
  | nil => exact absurd rfl splits.ne_nil
  | cons part others =>
    refine ⟨others, ?_⟩
    have same : firstBody first = part := by
      by_cases empty : cString first = []
      · rw [empty] at splits
        obtain ⟨rfl, -⟩ := List.cons.inj (splits.of_nil blankLine_ne_nil)
        simp [firstBody, empty]
      · rw [firstBody, split_of_splits blankLine_ne_nil true splits empty, kept_true]
        rfl
    rwa [same]

theorem firstBody_isPrefix (first : List Byte) : firstBody first <+: cString first := by
  obtain ⟨others, splits⟩ := splits_firstBody first
  generalize cString first = text at splits
  cases splits with
  | last => exact prefix_refl _
  | part => exact ⟨_, (append_assoc _ _ _).symm⟩

theorem length_firstBody_le (first : List Byte) : (firstBody first).length ≤ first.length :=
  (firstBody_isPrefix first).length_le.trans (length_cString_le first)

theorem firstBody_eq_iff {first : List Byte} :
    firstBody first = first ↔ 0 ∉ first ∧ ¬ blankLine <:+: first := by
  obtain ⟨others, splits⟩ := splits_firstBody first
  have whole := splits.first_eq_iff blankLine_ne_nil
  constructor
  · intro same
    have plain : cString first = first := by
      apply ( takeWhile_prefix _).eq_of_length
      apply Nat.le_antisymm (length_cString_le first)
      have short := (firstBody_isPrefix first).length_le
      rwa [same] at short
    rw [plain] at whole
    exact ⟨cString_eq_iff.mp plain, whole.mp same⟩
  · intro ⟨free, lines⟩
    rw [cString_eq_iff.mpr free] at whole
    exact whole.mpr lines

structure SizedMessage extends HttpMessage where
  sizeHeader : Header
  sizeHeader_mem : sizeHeader ∈ headers
  sizeHeader_name : sizeHeader.name = ascii "Content-Length"
  digits_ne : sizeHeader.value ≠ []
  digits : ∀ ch ∈ sizeHeader.value, Json.isDigit ch

namespace SizedMessage

variable (message : SizedMessage)

def contentLength : Nat := numeral message.sizeHeader.value

theorem sizeHeader_stored : message.sizeHeader.stored = some message.sizeHeader.field := by
  apply Header.stored_of_no_colon
  · simp [Header.field, message.digits_ne]
  · rw [Header.colon_mem_field_iff]
    intro colon
    exact absurd (message.digits 58 colon) (by decide)

theorem parsed_contentLength (body : List Byte) :
    (message.parsed body).headers (ascii "Content-Length") = some message.sizeHeader.field := by
  rw [← message.sizeHeader_name, message.parsed_header body message.sizeHeader_mem,
    sizeHeader_stored]

theorem cString_head_append (plain : 0 ∉ message.head) (first : List Byte) :
    cString (message.head ++ blankLine ++ first) = message.head ++ blankLine ++ cString first := by
  have noNul : ∀ byte ∈ message.head ++ blankLine, decide (byte ≠ 0) = true := by
    intro byte member
    rw [decide_eq_true_iff]
    rintro rfl
    rcases mem_append.mp member with inHead | inBlank
    · exact plain inHead
    · exact absurd inBlank (by decide)
  exact takeWhile_append_of_pos noNul

theorem parse_cString_of_nul (nul : 0 ∈ message.head) (first : List Byte) :
    parse {} (cString (message.head ++ blankLine ++ first)) = none := by
  have cut : cString (message.head ++ blankLine ++ first) = cString message.head := by
    rw [append_assoc]
    exact cString_append_of_nul nul _
  apply parse_of_no_blankLine
  intro inside
  apply message.leads_head.not_infix blankLine_ne_nil
  rw [cut] at inside
  exact inside.trans ( takeWhile_prefix _).isInfix

theorem opening_ne_nil (first : List Byte) :
    (message.head ++ blankLine ++ first).isEmpty = false := by
  simp [blankLine, ascii]

theorem receiveRequest_of_plain {first : List Byte}
    (roomy : Roomy (message.head ++ blankLine ++ first)) (plain : 0 ∉ message.head) (turns : Nat)
    (rest : List (List Byte)) :
    receiveRequest (turns + 1) ((message.head ++ blankLine ++ first) :: rest) =
      if message.contentLength < 2 ^ 31 then
        receiveBody message.contentLength turns rest (message.parsed (firstBody first))
      else .error (.thrown .outOfRange) := by
  obtain ⟨others, splits⟩ := splits_firstBody first
  have read : parse {} (cString (message.head ++ blankLine ++ first)) =
      some (message.parsed (firstBody first)) := by
    rw [message.cString_head_append plain, message.parse_head_append splits]
  have length : stoi message.sizeHeader.field = _ :=
    stoi_padded message.digits_ne message.digits _ _
  rw [receiveRequest_of_parse (message.opening_ne_nil first) turns rest roomy read
    (message.parsed_contentLength (firstBody first)), length, ← contentLength]
  split <;> rfl

/-- A first read with the head goes on to the loop exactly if it leaves room for the NUL, has none
in the head, and announces a size that is an `int`. -/
theorem receiveRequest_iff (first : List Byte) (rest : List (List Byte)) (turns : Nat)
    (result : HttpRequest) :
    receiveRequest (turns + 1) ((message.head ++ blankLine ++ first) :: rest) = .ok result ↔
      Roomy (message.head ++ blankLine ++ first) ∧ 0 ∉ message.head ∧
        message.contentLength < 2 ^ 31 ∧
        receiveBody message.contentLength turns rest (message.parsed (firstBody first)) =
          .ok result := by
  constructor
  · intro returns
    by_cases roomy : Roomy (message.head ++ blankLine ++ first)
    · by_cases nul : 0 ∈ message.head
      · rw [receiveRequest_of_parse_none (message.opening_ne_nil first) turns rest roomy
          (message.parse_cString_of_nul nul first)] at returns
        cases returns
      · rw [message.receiveRequest_of_plain roomy nul] at returns
        split at returns
        case isTrue small => exact ⟨roomy, nul, small, returns⟩
        case isFalse => cases returns
    · rw [receiveRequest_of_not_roomy (message.opening_ne_nil first) turns rest roomy] at returns
      cases returns
  · intro ⟨roomy, plain, small, loop⟩
    rw [message.receiveRequest_of_plain roomy plain, if_pos small, loop]

end SizedMessage

end Head

/-- How a request arrives: the first read ends with a first piece of the body. -/
structure Arrival extends SizedMessage where
  first : List Byte
  rest : List (List Byte)
  rest_ne : ∀ read ∈ rest, read ≠ []
  first_fits : (toHttpMessage.head ++ blankLine ++ first).length ≤ maxRequestSize
  rest_fits : ∀ read ∈ rest, read.length ≤ maxRequestSize

namespace Arrival

variable (arrival : Arrival)

def opening : List Byte := arrival.head ++ blankLine ++ arrival.first

def reads : List (List Byte) := arrival.opening :: arrival.rest

theorem returns_iff :
    (∃ turns result, receiveRequest turns arrival.reads = .ok result) ↔
      Roomy arrival.opening ∧ 0 ∉ arrival.head ∧ arrival.contentLength < 2 ^ 31 ∧
        ∃ count ≤ arrival.rest.length, (∀ read ∈ arrival.rest.take count, Roomy read) ∧
          (firstBody arrival.first ++ appended (arrival.rest.take count)).length =
            arrival.contentLength := by
  constructor
  · intro ⟨turns, result, returns⟩
    cases turns with
    | zero => cases returns
    | succ turns =>
      obtain ⟨roomy, plain, small, loop⟩ :=
        (arrival.receiveRequest_iff arrival.first arrival.rest turns result).mp returns
      obtain ⟨count, within, roomyRest, rfl, size⟩ := of_receiveBody small loop
      refine ⟨roomy, plain, small, count, within, roomyRest, ?_⟩
      simpa [parsed_body] using size
  · intro ⟨roomy, plain, small, count, within, roomyRest, size⟩
    have met : ((arrival.parsed (firstBody arrival.first)).body ++
        appended (arrival.rest.take count)).length = arrival.contentLength := by
      rw [parsed_body]
      exact size
    obtain ⟨result, loop⟩ := receiveBody_returns small within roomyRest met
    exact ⟨count + 1 + 1, result,
      (arrival.receiveRequest_iff arrival.first arrival.rest _ result).mpr
        ⟨roomy, plain, small, loop⟩⟩

end Arrival

structure WholeArrival extends Arrival where
  whole : first ++ rest.flatten = body
  announced : toSizedMessage.contentLength = body.length

namespace WholeArrival

variable (arrival : WholeArrival)

def Assembled : Prop :=
  ∃ turns result, receiveRequest turns arrival.reads = .ok result ∧ result.body = arrival.body ∧
    result.bodyParams = parseParams (fun _ => none) arrival.body

/-- What the cut and the bytes must be like for that. -/
structure Harmless : Prop where
  opening : Roomy arrival.opening
  rest : ∀ read ∈ arrival.rest, Roomy read
  size : arrival.body.length < 2 ^ 31
  head_nul : 0 ∉ arrival.head
  body_nul : 0 ∉ arrival.body
  first_lines : ¬ blankLine <:+: arrival.first
  params : parseParams (fun _ => none) arrival.first = parseParams (fun _ => none) arrival.body

theorem all_taken {count : Nat}
    (size : (firstBody arrival.first ++ appended (arrival.rest.take count)).length =
      arrival.body.length) :
    firstBody arrival.first = arrival.first ∧ arrival.rest.take count = arrival.rest ∧
      ∀ read ∈ arrival.rest, 0 ∉ read := by
  have first := length_firstBody_le arrival.first
  have taken := length_appended_le (arrival.rest.take count)
  have split := congrArg (fun reads => (List.flatten reads).length)
    (take_append_drop count arrival.rest)
  simp only [flatten_append, length_append] at split
  simp only [← arrival.whole, length_append] at size
  have nothing_left : (arrival.rest.drop count).flatten = [] := eq_nil_of_length_eq_zero (by omega)
  have all : arrival.rest.take count = arrival.rest := by
    apply take_of_length_le
    apply drop_eq_nil_iff.mp
    apply eq_nil_iff_forall_not_mem.mpr
    intro read left
    have empty := flatten_eq_nil_iff.mp nothing_left read left
    exact arrival.rest_ne read (mem_of_mem_drop left) empty
  rw [all] at size taken
  refine ⟨?_, all, no_nul_of_length_appended (by omega)⟩
  have prefix_first := (firstBody_isPrefix arrival.first).trans ( takeWhile_prefix _)
  exact prefix_first.eq_of_length (by omega)

theorem mem_body_iff {byte : Byte} :
    byte ∈ arrival.body ↔ byte ∈ arrival.first ∨ ∃ read ∈ arrival.rest, byte ∈ read := by
  rw [← arrival.whole, mem_append, mem_flatten]

theorem harmless_of_assembled (assembled : arrival.Assembled) : arrival.Harmless := by
  obtain ⟨turns, result, returns, -, params⟩ := assembled
  cases turns with
  | zero => cases returns
  | succ turns =>
    obtain ⟨roomy, plain, small, loop⟩ :=
      (arrival.receiveRequest_iff arrival.first arrival.rest turns result).mp returns
    obtain ⟨count, -, roomyRest, rfl, size⟩ := of_receiveBody small loop
    rw [parsed_body, arrival.announced] at size
    obtain ⟨first, all, restPlain⟩ := arrival.all_taken size
    obtain ⟨firstPlain, lines⟩ := firstBody_eq_iff.mp first
    rw [all] at roomyRest
    refine ⟨roomy, roomyRest, arrival.announced ▸ small, plain, ?_, lines, ?_⟩
    · rw [mem_body_iff]
      rintro (inFirst | ⟨read, member, inRead⟩)
      · exact firstPlain inFirst
      · exact restPlain read member inRead
    · rw [← params, parsed_bodyParams, first]

theorem assembled_of_harmless (harmless : arrival.Harmless) : arrival.Assembled := by
  have small : arrival.contentLength < 2 ^ 31 := arrival.announced ▸ harmless.size
  have firstPlain : 0 ∉ arrival.first := fun nul =>
    harmless.body_nul (arrival.mem_body_iff.mpr (.inl nul))
  have restPlain : ∀ read ∈ arrival.rest, 0 ∉ read := fun read member nul =>
    harmless.body_nul (arrival.mem_body_iff.mpr (.inr ⟨read, member, nul⟩))
  have first : firstBody arrival.first = arrival.first :=
    firstBody_eq_iff.mpr ⟨firstPlain, harmless.first_lines⟩
  have whole : firstBody arrival.first ++ appended arrival.rest = arrival.body := by
    rw [first, appended_of_no_nul restPlain, arrival.whole]
  have met : ((arrival.parsed (firstBody arrival.first)).body ++
      appended (arrival.rest.take arrival.rest.length)).length = arrival.contentLength := by
    rw [parsed_body, take_length, whole, arrival.announced]
  obtain ⟨result, loop⟩ := receiveBody_returns small (Nat.le_refl _)
    (by simpa using harmless.rest) met
  refine ⟨_, result, (arrival.receiveRequest_iff arrival.first arrival.rest _ result).mpr
    ⟨harmless.opening, harmless.head_nul, small, loop⟩, ?_⟩
  obtain ⟨count, -, -, rfl, size⟩ := of_receiveBody small loop
  rw [parsed_body, arrival.announced] at size
  obtain ⟨-, all, -⟩ := arrival.all_taken size
  refine ⟨?_, ?_⟩
  · rw [all, parsed_body, whole]
  · rw [parsed_bodyParams, first, harmless.params]

end WholeArrival

def lengthHeader : Header := ⟨ascii "Content-Length", 1, ascii "1", 0⟩

theorem lengthHeader_wellFormed : lengthHeader.WellFormed := by
  constructor <;> decide +kernel

def postMessage : SizedMessage where
  method := ascii "POST"
  url := ascii "/"
  httpVersion := ascii "HTTP/1.1"
  headers := [lengthHeader]
  body := ascii "a"
  method_space := by decide +kernel
  url_space := HttpMessage.rootUrl_space
  httpVersion_space := HttpMessage.version_space
  one_line := by decide +kernel
  wellFormed := by simpa using lengthHeader_wellFormed
  distinct := by simp
  sizeHeader := lengthHeader
  sizeHeader_mem := by simp
  sizeHeader_name := rfl
  digits_ne := by decide +kernel
  digits := by decide +kernel

end Bitdb.Http
