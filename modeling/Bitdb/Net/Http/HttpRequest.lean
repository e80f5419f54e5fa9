import Bitdb.Common.StringUtils
import Mathlib.Logic.Function.Basic

/-! HTTP requests, their parser and their routing (`http_request.h`, `http_request.cpp` and
`http_router.h` of `bitdb/net/http`). Reading a split result past its end is the result `none`. The
results of `Trim` are discarded by the source, so that the calls do nothing; what is only logged is
left out. A handler is any value; running it is left to the caller. What `Parse` recovers of a
well-formed request. Query strings and routing. The parser looks for parameters behind an ampersand
only, and the router looks up the whole URL. -/

set_option autoImplicit false

namespace Bitdb.Http

open StringUtils Base Option

def crlf : List Byte := ascii "\r\n"

def blankLine : List Byte := ascii "\r\n\r\n"

/-- `std::unordered_map<std::string, std::string>`. -/
abbrev Fields := List Byte → Option (List Byte)

structure HttpRequest where
  method : List Byte := []
  url : List Byte := []
  uri : List Byte := []
  httpVersion : List Byte := []
  body : List Byte := []
  headers : Fields := fun _ => none
  urlParams : Fields := fun _ => none
  bodyParams : Fields := fun _ => none

/-- `fields[key] = value` if the text was split into a key and a value. -/
def store (fields : Fields) (keyValue : List (List Byte)) : Fields :=
  match keyValue with
  | [key, value] => Function.update fields key (some value)
  | _ => fields

def parseHeader (headers : Fields) (header : List Byte) : Fields :=
  if ¬ header.isEmpty ∧ contains header (ascii ":") then
    store headers (split header (ascii ":") false)
  else headers

/-- `ParseHeaders`, which leaves out the first line. -/
def parseHeaders (headers : Fields) (lines : List (List Byte)) : Fields :=
  (lines.drop 1).foldl parseHeader headers

/-- The loop that `ParseURLParams` and `ParseBody` share. -/
def parseParams (fields : Fields) (text : List Byte) : Fields :=
  (split text (ascii "&") true).foldl (fun fields param =>
    store fields (split param (ascii "=") true)) fields

def parseURLParams (request : HttpRequest) (url : List Byte) : HttpRequest :=
  { request with urlParams := parseParams request.urlParams url }

def parseBody (request : HttpRequest) (body : List Byte) : HttpRequest :=
  { request with bodyParams := parseParams request.bodyParams body }

/-- The end of `ParseLine`, once the words are stored: are there parameters? -/
def parseURL (request : HttpRequest) : HttpRequest :=
  match split request.url (ascii "&") true with
  | [uri, params] => parseURLParams { request with uri := uri } params
  | _ => { request with uri := request.url }

def parseLine (request : HttpRequest) (line : List Byte) : Option HttpRequest := do
  let lineDatas := split line (ascii " ") true
  let method ← lineDatas[0]?
  let url ← lineDatas[1]?
  let httpVersion ← lineDatas[2]?
  some (parseURL { request with method := method, url := url, httpVersion := httpVersion })

def parse (request : HttpRequest) (data : List Byte) : Option HttpRequest := do
  let headAndBody := split data blankLine true
  let body ← headAndBody[1]?
  let request := if body.isEmpty then request else { request with body := body }
  let head ← headAndBody[0]?
  let lineAndHead := split head crlf false
  let line ← lineAndHead[0]?
  let request ← parseLine request line
  let request := { request with headers := parseHeaders request.headers lineAndHead }
  some (parseBody request body)

structure HttpContext where
  path : List Byte
  method : List Byte
  deriving DecidableEq, Repr

def HttpContext.ofRequest (request : HttpRequest) : HttpContext where
  path := request.url
  method := request.method

/-- What `Handle` does: it runs a handler, or it fills in the response itself. -/
inductive Handled (Handler : Type) where
  | run (handler : Handler)
  | html (code : Nat) (html : List Byte)
  deriving DecidableEq, Repr

variable {Handler : Type}

abbrev Router (Handler : Type) := List Byte → Option Handler

def routeKey (method url : List Byte) : List Byte := join [method, url] (ascii "-")

def addRouter (router : Router Handler) (method url : List Byte) (handler : Handler) :
    Router Handler :=
  if method = ascii "DELETE" then router
  else if ¬ endsWith url (ascii "/") then router
  else Function.update router (routeKey method url) (some handler)

def notFound (method path : List Byte) : List Byte :=
  ascii "404 Not Found: " ++ method ++ ascii " not at " ++ path ++ ascii "\n"

def handle (router : Router Handler) (context : HttpContext) : Handled Handler :=
  match router (routeKey context.method context.path) with
  | some handler => .run handler
  | none => .html 404 (notFound context.method context.path)

structure Route (Handler : Type) where
  method : List Byte
  url : List Byte
  handler : Handler

def addRouters (routes : List (Route Handler)) : Router Handler :=
  routes.foldl (fun router route => addRouter router route.method route.url route.handler)
    fun _ => none

theorem crlf_ne_nil : crlf ≠ [] := by decide

theorem blankLine_ne_nil : blankLine ≠ [] := by decide

theorem split_blankLine {head : List Byte} (leads : Leads blankLine head) (body : List Byte) :
    ∃ parts, Splits blankLine body parts ∧
      split (head ++ blankLine ++ body) blankLine true = head :: parts := by
  obtain ⟨parts, splits⟩ := exists_splits blankLine_ne_nil body
  refine ⟨parts, splits, ?_⟩
  rw [split_of_splits blankLine_ne_nil true (.part leads splits) (by simp [blankLine_ne_nil]),
    kept_true]

theorem length_split_singleton {separator : Byte} {text : List Byte} (some_left : text ≠ []) :
    (split text [separator] true).length = text.count separator + 1 := by
  obtain ⟨parts, splits⟩ := exists_splits (List.cons_ne_nil separator []) text
  rw [split_of_splits (List.cons_ne_nil _ _) true splits some_left, kept_true,
    splits.length_singleton]

section

variable (request : HttpRequest)

include request

theorem parseURL_kept :
    (parseURL request).method = request.method ∧ (parseURL request).url = request.url ∧
      (parseURL request).httpVersion = request.httpVersion ∧
      (parseURL request).body = request.body ∧ (parseURL request).headers = request.headers ∧
      (parseURL request).bodyParams = request.bodyParams := by
  unfold parseURL
  split <;> simp [parseURLParams]

theorem parseLine_of_words {line method url httpVersion : List Byte} {more : List (List Byte)}
    (words : split line (ascii " ") true = method :: url :: httpVersion :: more) :
    parseLine request line =
      some (parseURL { request with method := method, url := url, httpVersion := httpVersion }) := by
  simp [parseLine, words]

theorem parseLine_isSome_iff {line : List Byte} (some_left : line ≠ []) :
    (parseLine request line).isSome ↔ 2 ≤ line.count 32 := by
  have counted : (split line (ascii " ") true).length = line.count 32 + 1 :=
    length_split_singleton some_left
  cases words : split line (ascii " ") true with
  | nil =>
    rw [words] at counted
    simp at counted
  | cons method rest =>
    rw [words, List.length_cons] at counted
    cases rest with
    | nil => simp_all [parseLine]
    | cons url rest =>
      cases rest with
      | nil => simp_all [parseLine]
      | cons httpVersion more =>
        rw [parseLine_of_words request words]
        simp only [List.length_cons] at counted
        simp only [isSome_some, true_iff]
        omega

theorem parse_of_head {head body first : List Byte} {others : List (List Byte)}
    (halves : split (head ++ blankLine ++ body) blankLine true = head :: first :: others) :
    parse request (head ++ blankLine ++ body) =
      (split head crlf false)[0]?.bind fun line =>
        (parseLine (if first.isEmpty then request else { request with body := first }) line).map
          fun read => parseBody
            { read with headers := parseHeaders read.headers (split head crlf false) } first := by
  simp only [parse, halves, List.getElem?_cons_succ, List.getElem?_cons_zero, bind_eq_bind,
    bind_some, map_eq_bind]
  rfl

theorem parse_of_no_blankLine {data : List Byte} (absent : ¬ blankLine <:+: data) :
    parse request data = none := by
  have halves : (split data blankLine true)[1]? = none := by
    by_cases empty : data = []
    · rw [empty, split_nil]
      rfl
    · rw [split_of_splits blankLine_ne_nil true (.last absent) empty, kept_true]
      rfl
  simp [parse, halves]

theorem parse_isSome_of_head {head : List Byte} {lines : List (List Byte)}
    (leads : Leads blankLine head) (splits : Splits crlf head lines) (body : List Byte) :
    (parse request (head ++ blankLine ++ body)).isSome ↔
      ∃ line, lines.find? (fun line => !line.isEmpty) = some line ∧ 2 ≤ line.count 32 := by
  obtain ⟨parts, rest, halves⟩ := split_blankLine leads body
  cases parts with
  | nil => exact absurd rfl rest.ne_nil
  | cons first others =>
    have begins : (split head crlf false)[0]? = lines.find? fun line => !line.isEmpty := by
      rw [split_false_of_splits crlf_ne_nil splits, kept_false, ← List.head?_eq_getElem?,
        List.head?_filter]
    rw [parse_of_head request halves, begins]
    cases found : lines.find? fun line => !line.isEmpty with
    | none => simp
    | some line =>
      have some_left : line ≠ [] := by
        have nonempty := List.find?_some found
        simpa using nonempty
      simp only [bind_some, isSome_map, parseLine_isSome_iff _ some_left,
        Option.some.injEq, exists_eq_left']

end

/-- `Parse` stays within its split results exactly if there is a blank line, and a line of at least
three words before the first one. -/
theorem parse_in_bounds_iff (request : HttpRequest) (data : List Byte) :
    (parse request data).isSome ↔
      ∃ head body lines line, data = head ++ blankLine ++ body ∧ Leads blankLine head ∧
        Splits crlf head lines ∧ lines.find? (fun line => !line.isEmpty) = some line ∧
        2 ≤ line.count 32 := by
  constructor
  · intro returns
    cases found : occurrence blankLine data with
    | none =>
      rw [parse_of_no_blankLine request (occurrence_eq_none_iff.mp found)] at returns
      cases returns
    | some place =>
      obtain ⟨head, body, rfl, -, leads⟩ := of_occurrence found
      obtain ⟨lines, splits⟩ := exists_splits crlf_ne_nil head
      obtain ⟨line, first, words⟩ := (parse_isSome_of_head request leads splits body).mp returns
      exact ⟨head, body, lines, line, rfl, leads, splits, first, words⟩
  · intro ⟨head, body, lines, line, whole, leads, splits, first, words⟩
    rw [whole]
    exact (parse_isSome_of_head request leads splits body).mpr ⟨line, first, words⟩

theorem parse_without_blank_line : parse {} (ascii "GET / HTTP/1.1\r\n") = none := by
  have absent : ¬ blankLine <:+: ascii "GET / HTTP/1.1\r\n" := by decide +kernel
  exact parse_of_no_blankLine {} absent

open List

/-- A header line `Name: value`; the value is what is left without the spaces around it. -/
structure Header where
  name : List Byte
  padBefore : Nat
  value : List Byte
  padAfter : Nat
  deriving DecidableEq, Repr

namespace Header

def field (header : Header) : List Byte :=
  List.replicate header.padBefore 32 ++ header.value ++ List.replicate header.padAfter 32

def line (header : Header) : List Byte :=
  header.name ++ ascii ":" ++ header.field

structure WellFormed (header : Header) : Prop where
  name_ne : header.name ≠ []
  name_colon : 58 ∉ header.name
  value_begins : header.value.head? ≠ some 32
  value_ends : header.value.getLast? ≠ some 32
  one_line : ¬ crlf <:+: header.line

end Header

def requestLine (method url httpVersion : List Byte) : List Byte :=
  method ++ ascii " " ++ (url ++ ascii " " ++ httpVersion)

structure HttpMessage where
  method : List Byte
  url : List Byte
  httpVersion : List Byte
  headers : List Header
  body : List Byte
  method_space : 32 ∉ method
  url_space : 32 ∉ url
  httpVersion_space : 32 ∉ httpVersion
  one_line : ¬ crlf <:+: requestLine method url httpVersion
  wellFormed : ∀ header ∈ headers, header.WellFormed
  distinct : (headers.map Header.name).Nodup

namespace HttpMessage

def lines (message : HttpMessage) : List (List Byte) :=
  requestLine message.method message.url message.httpVersion :: message.headers.map Header.line

def head (message : HttpMessage) : List Byte :=
  crlf.intercalate message.lines

def text (message : HttpMessage) : List Byte :=
  message.head ++ blankLine ++ message.body

end HttpMessage

section Lines

variable {line : List Byte}

theorem leads_crlf (free : ¬ crlf <:+: line) : Leads crlf line := by
  induction line with
  | nil => exact leads_nil crlf
  | cons first line ih =>
    obtain ⟨notHere, later⟩ := not_or.mp (infix_cons_iff.not.mp free)
    refine leads_cons.mpr ⟨?_, ih later⟩
    -- the two bytes cannot stand across the end of the line: its last byte is followed by a CR
    intro ahead
    cases line with
    | nil => simp [crlf, ascii] at ahead
    | cons second line => exact notHere (by simpa [crlf, ascii] using ahead)

theorem crlf_eq : crlf = [13, 10] := by decide

theorem blankLine_eq : blankLine = crlf ++ crlf := by decide

theorem not_blankLine_ahead {first : Byte} (leads : Leads crlf (first :: line)) (rest : List Byte) :
    ¬ blankLine <+: first :: (line ++ crlf ++ rest) := by
  intro ahead
  rw [blankLine_eq] at ahead
  exact leads.not_isPrefix rest ((prefix_append crlf crlf).trans ahead)

theorem leads_blankLine_of_leads_crlf (leads : Leads crlf line) : Leads blankLine line := by
  induction line with
  | nil => exact leads_nil blankLine
  | cons first line ih =>
    refine leads_cons.mpr ⟨?_, ih (leads_cons.mp leads).2⟩
    rw [blankLine_eq, ← append_assoc, ← blankLine_eq]
    exact not_blankLine_ahead leads crlf

theorem leads_blankLine_append {rest : List Byte} (leads : Leads crlf line)
    (notDouble : ¬ crlf <+: rest ++ blankLine) (later : Leads blankLine rest) :
    Leads blankLine (line ++ crlf ++ rest) := by
  induction line with
  | nil =>
    rw [crlf_eq]
    refine leads_cons.mpr ⟨?_, leads_cons.mpr ⟨?_, later⟩⟩
    · intro ahead
      apply notDouble
      rw [blankLine_eq, crlf_eq] at ahead
      rw [blankLine_eq, crlf_eq]
      exact (prefix_append_right_inj [13, 10]).mp ahead
    · intro ahead
      simp [blankLine_eq, crlf_eq] at ahead
  | cons first line ih =>
    rw [cons_append, cons_append]
    refine leads_cons.mpr ⟨?_, ih (leads_cons.mp leads).2⟩
    rw [append_assoc]
    exact not_blankLine_ahead leads (rest ++ blankLine)

theorem splits_intercalate_crlf (line : List Byte) (rest : List (List Byte))
    (free : ∀ each ∈ line :: rest, ¬ crlf <:+: each) :
    Splits crlf (crlf.intercalate (line :: rest)) (line :: rest) := by
  induction rest generalizing line with
  | nil => simpa [List.intercalate] using Splits.last (free line (by simp))
  | cons next rest ih =>
    have later := ih next (forall_mem_cons.mp free).2
    have step := Splits.part (leads_crlf (free line (by simp))) later
    simpa [List.intercalate] using step

theorem intercalate_blankLine (line : List Byte) (rest : List (List Byte)) :
    ∃ after, crlf.intercalate (line :: rest) ++ blankLine = line ++ crlf ++ after := by
  cases rest with
  | nil => exact ⟨crlf, by simp [List.intercalate, blankLine_eq]⟩
  | cons next rest =>
    exact ⟨crlf.intercalate (next :: rest) ++ blankLine, by simp [List.intercalate]⟩

theorem leads_blankLine_intercalate (line : List Byte) (rest : List (List Byte))
    (free : ∀ each ∈ line :: rest, ¬ crlf <:+: each) (nonempty : ∀ each ∈ rest, each ≠ []) :
    Leads blankLine (crlf.intercalate (line :: rest)) := by
  induction rest generalizing line with
  | nil =>
    simpa [List.intercalate] using leads_blankLine_of_leads_crlf (leads_crlf (free line (by simp)))
  | cons next rest ih =>
    obtain ⟨lineFree, restFree⟩ := forall_mem_cons.mp free
    obtain ⟨nextNonempty, restNonempty⟩ := forall_mem_cons.mp nonempty
    have later := ih next restFree restNonempty
    have whole : crlf.intercalate (line :: next :: rest) =
        line ++ crlf ++ crlf.intercalate (next :: rest) := by
      simp [List.intercalate]
    rw [whole]
    refine leads_blankLine_append (leads_crlf lineFree) ?_ later
    -- the next line is not empty, so that no second line break stands right after the first
    obtain ⟨after, ends⟩ := intercalate_blankLine next rest
    rw [ends]
    cases next with
    | nil => exact absurd rfl nextNonempty
    | cons first next => exact (leads_crlf (restFree _ mem_cons_self)).not_isPrefix after

end Lines

namespace Header

def stored (header : Header) : Option (List Byte) :=
  match split header.field (ascii ":") false with
  | [value] => some value
  | _ => none

variable {header : Header}

section

variable (wellFormed : header.WellFormed)

include wellFormed

theorem WellFormed.splits_line {parts : List (List Byte)}
    (splits : Splits (ascii ":") header.field parts) :
    Splits (ascii ":") header.line (header.name :: parts) :=
  .part (leads_singleton.mpr wellFormed.name_colon) splits

theorem WellFormed.line_ne_nil : header.line ≠ [] := by
  simp [line, wellFormed.name_ne]

theorem WellFormed.split_line :
    split header.line (ascii ":") false = header.name :: split header.field (ascii ":") false := by
  obtain ⟨parts, splits⟩ := exists_splits (by decide : ascii ":" ≠ []) header.field
  rw [split_false_of_splits (by decide) (wellFormed.splits_line splits),
    split_false_of_splits (by decide) splits, kept_cons]
  simp [wellFormed.name_ne]

theorem WellFormed.parseHeader_line (fields : Fields) :
    parseHeader fields header.line =
      header.stored.elim fields fun value => Function.update fields header.name (some value) := by
  have colon : contains header.line (ascii ":") := contains_iff.mpr ⟨header.name, header.field, rfl⟩
  rw [parseHeader, if_pos ⟨by simpa using wellFormed.line_ne_nil, colon⟩, wellFormed.split_line,
    stored]
  match split header.field (ascii ":") false with
  | [] => rfl
  | [_] => rfl
  | _ :: _ :: _ => rfl

theorem WellFormed.parseHeader_self (fields : Fields) :
    parseHeader fields header.line header.name = header.stored.or (fields header.name) := by
  rw [wellFormed.parseHeader_line]
  cases header.stored <;> simp

theorem WellFormed.parseHeader_other (fields : Fields) {name : List Byte}
    (other : name ≠ header.name) : parseHeader fields header.line name = fields name := by
  rw [wellFormed.parseHeader_line]
  cases header.stored <;> simp [other]

end

theorem stored_of_no_colon (nonempty : header.field ≠ []) (free : 58 ∉ header.field) :
    header.stored = some header.field := by
  have single : Splits (ascii ":") header.field [header.field] := by
    refine .last fun colon => free ((singleton_infix_iff _ _).mp colon)
  rw [stored, split_false_of_splits (by decide) single]
  simp [kept, nonempty]

theorem of_stored {value : List Byte} (stores : header.stored = some value) :
    value ≠ [] ∧ 58 ∉ value := by
  obtain ⟨parts, splits⟩ := exists_splits (by decide : ascii ":" ≠ []) header.field
  rw [stored, split_false_of_splits (by decide) splits, kept_false] at stores
  split at stores
  case h_1 _ only kept =>
    obtain rfl := Option.some.inj stores
    have member : only ∈ parts.filter fun part => !part.isEmpty := by
      rw [kept]
      exact mem_singleton_self only
    obtain ⟨part, nonempty⟩ := mem_filter.mp member
    refine ⟨by simpa using nonempty, ?_⟩
    intro colon
    exact splits.not_infix (by decide) only part ((singleton_infix_iff _ _).mpr colon)
  case h_2 => cases stores

/-- The headers whose value is stored as it should be. -/
structure Plain (header : Header) : Prop where
  padBefore : header.padBefore = 0
  padAfter : header.padAfter = 0
  nonempty : header.value ≠ []
  no_colon : 58 ∉ header.value

theorem colon_mem_field_iff : 58 ∈ header.field ↔ 58 ∈ header.value := by
  simp [field, mem_replicate]

theorem stored_value_iff : header.stored = some header.value ↔ header.Plain := by
  constructor
  · intro stores
    obtain ⟨nonempty, free⟩ := of_stored stores
    have fieldNonempty : header.field ≠ [] := by simp [field, nonempty]
    have whole := stored_of_no_colon fieldNonempty (colon_mem_field_iff.not.mpr free)
    have same : header.field = header.value := Option.some.inj (whole.symm.trans stores)
    have lengths := congrArg List.length same
    simp only [field, length_append, length_replicate] at lengths
    exact ⟨by omega, by omega, nonempty, free⟩
  · intro plain
    have same : header.field = header.value := by
      simp [field, plain.padBefore, plain.padAfter]
    rw [stored_of_no_colon (same ▸ plain.nonempty) (same ▸ plain.no_colon), same]

end Header

theorem foldl_parseHeader {headers : List Header}
    (wellFormed : ∀ header ∈ headers, header.WellFormed)
    (distinct : (headers.map Header.name).Nodup) (fields : Fields) :
    (∀ header ∈ headers, (headers.map Header.line).foldl parseHeader fields header.name =
      header.stored.or (fields header.name)) ∧
    ∀ name ∉ headers.map Header.name,
      (headers.map Header.line).foldl parseHeader fields name = fields name := by
  induction headers generalizing fields with
  | nil => simp
  | cons first headers ih =>
    obtain ⟨firstWellFormed, restWellFormed⟩ := forall_mem_cons.mp wellFormed
    obtain ⟨fresh, restDistinct⟩ := nodup_cons.mp distinct
    obtain ⟨each, others⟩ := ih restWellFormed restDistinct (parseHeader fields first.line)
    simp only [map_cons, foldl_cons]
    refine ⟨forall_mem_cons.mpr ⟨?_, ?_⟩, ?_⟩
    · rw [others _ fresh, firstWellFormed.parseHeader_self]
    · intro header member
      have other : header.name ≠ first.name := by
        intro same
        exact fresh (same ▸ mem_map_of_mem member)
      rw [each header member, firstWellFormed.parseHeader_other _ other]
    · intro name absent
      obtain ⟨different, later⟩ := ne_and_not_mem_of_not_mem_cons absent
      rw [others name later, firstWellFormed.parseHeader_other _ different]

namespace HttpMessage

def begun (message : HttpMessage) (body : List Byte) : HttpRequest where
  method := message.method
  url := message.url
  httpVersion := message.httpVersion
  body := body

def parsed (message : HttpMessage) (body : List Byte) : HttpRequest :=
  let request := parseURL (message.begun body)
  parseBody
    { request with headers := (message.headers.map Header.line).foldl parseHeader fun _ => none }
    body

variable (message : HttpMessage)

theorem lines_free : ∀ line ∈ message.lines, ¬ crlf <:+: line := by
  refine forall_mem_cons.mpr ⟨message.one_line, ?_⟩
  intro line member
  obtain ⟨header, headers, rfl⟩ := mem_map.mp member
  exact (message.wellFormed header headers).one_line

theorem header_lines_ne_nil : ∀ line ∈ message.headers.map Header.line, line ≠ [] := by
  intro line member
  obtain ⟨header, headers, rfl⟩ := mem_map.mp member
  exact (message.wellFormed header headers).line_ne_nil

theorem leads_head : Leads blankLine message.head :=
  leads_blankLine_intercalate _ _ message.lines_free message.header_lines_ne_nil

theorem split_head : split message.head crlf false = message.lines := by
  have splits : Splits crlf message.head message.lines :=
    splits_intercalate_crlf _ _ message.lines_free
  rw [split_false_of_splits crlf_ne_nil splits, kept_false]
  apply filter_eq_self.mpr
  intro line member
  rcases mem_cons.mp member with rfl | header
  · simp [requestLine, ascii]
  · simpa using message.header_lines_ne_nil line header

theorem split_requestLine :
    split (requestLine message.method message.url message.httpVersion) (ascii " ") true =
      [message.method, message.url, message.httpVersion] := by
  have last : Splits (ascii " ") message.httpVersion [message.httpVersion] :=
    .last fun space => message.httpVersion_space ((singleton_infix_iff _ _).mp space)
  have middle := Splits.part (leads_singleton.mpr message.url_space) last
  have whole : Splits (ascii " ") (requestLine message.method message.url message.httpVersion) _ :=
    Splits.part (leads_singleton.mpr message.method_space) middle
  have some_left : requestLine message.method message.url message.httpVersion ≠ [] := by
    simp [requestLine, ascii]
  rw [split_of_splits (by decide) true whole some_left, kept_true]

theorem parse_head_append {body first : List Byte} {others : List (List Byte)}
    (splits : Splits blankLine body (first :: others)) :
    parse {} (message.head ++ blankLine ++ body) = some (message.parsed first) := by
  have halves : split (message.head ++ blankLine ++ body) blankLine true =
      message.head :: first :: others := by
    rw [split_of_splits blankLine_ne_nil true (.part message.leads_head splits)
      (by simp [blankLine_ne_nil]), kept_true]
  have body_eq : (if first.isEmpty then ({} : HttpRequest) else { body := first }) =
      { body := first } := by
    cases first <;> rfl
  rw [parse_of_head {} halves, split_head, body_eq]
  have begins : message.lines[0]? =
      some (requestLine message.method message.url message.httpVersion) := rfl
  rw [begins, Option.bind_some, parseLine_of_words _ message.split_requestLine, Option.map_some]
  obtain ⟨-, -, -, -, headers, -⟩ := parseURL_kept (message.begun first)
  rw [parsed, ← begun, headers]
  rfl

theorem exists_parse_text : ∃ body, parse {} message.text = some (message.parsed body) := by
  obtain ⟨parts, splits⟩ := exists_splits blankLine_ne_nil message.body
  cases parts with
  | nil => exact absurd rfl splits.ne_nil
  | cons first others => exact ⟨first, message.parse_head_append splits⟩

theorem parsed_context (body : List Byte) :
    (message.parsed body).url = message.url ∧ (message.parsed body).method = message.method := by
  obtain ⟨method, url, -⟩ := parseURL_kept (message.begun body)
  exact ⟨url, method⟩

theorem parsed_body (body : List Byte) : (message.parsed body).body = body :=
  (parseURL_kept _).2.2.2.1

theorem parsed_bodyParams (body : List Byte) :
    (message.parsed body).bodyParams = parseParams (fun _ => none) body := by
  have kept := (parseURL_kept (message.begun body)).2.2.2.2.2
  simp only [parsed, parseBody, kept]
  rfl

theorem parsed_header (body : List Byte) {header : Header} (member : header ∈ message.headers) :
    (message.parsed body).headers header.name = header.stored := by
  have each := (foldl_parseHeader message.wellFormed message.distinct fun _ => none).1
  exact (each header member).trans (Option.or_none)

/-- Headers and body are recovered exactly if no value is padded, empty or holds a colon, and no
blank line stands in the body. -/
theorem parse_recovers_iff :
    (∃ request, parse {} message.text = some request ∧
      (∀ header ∈ message.headers, request.headers header.name = some header.value) ∧
      request.body = message.body) ↔
    (∀ header ∈ message.headers, header.Plain) ∧ ¬ blankLine <:+: message.body := by
  obtain ⟨parts, splits⟩ := exists_splits blankLine_ne_nil message.body
  cases parts with
  | nil => exact absurd rfl splits.ne_nil
  | cons first others =>
    have result : parse {} message.text = some (message.parsed first) :=
      message.parse_head_append splits
    have eachHeader : (∀ header ∈ message.headers,
        (message.parsed first).headers header.name = some header.value) ↔
        ∀ header ∈ message.headers, header.Plain := by
      refine forall₂_congr fun header member => ?_
      rw [message.parsed_header first member, Header.stored_value_iff]
    simp only [result, Option.some.injEq, exists_eq_left', eachHeader, parsed_body,
      splits.first_eq_iff blankLine_ne_nil]

theorem getMethod_space : 32 ∉ ascii "GET" := by decide +kernel

theorem rootUrl_space : 32 ∉ ascii "/" := by decide +kernel

theorem version_space : 32 ∉ ascii "HTTP/1.1" := by decide +kernel

def hostHeader : Header := ⟨ascii "Host", 1, ascii "localhost:8080", 0⟩

theorem hostHeader_wellFormed : hostHeader.WellFormed := by
  constructor <;> decide +kernel

def hostMessage : HttpMessage where
  method := ascii "GET"
  url := ascii "/"
  httpVersion := ascii "HTTP/1.1"
  headers := [hostHeader]
  body := []
  method_space := getMethod_space
  url_space := rootUrl_space
  httpVersion_space := version_space
  one_line := by decide +kernel
  wellFormed := by simpa using hostHeader_wellFormed
  distinct := by simp

/-- A `Host` header with a port is not stored at all. -/
theorem parse_loses_host :
    hostMessage.text = ascii "GET / HTTP/1.1\r\nHost: localhost:8080\r\n\r\n" ∧
      (parse {} hostMessage.text).map (fun request => request.headers (ascii "Host")) =
        some none := by
  constructor <;> decide +kernel

end HttpMessage

section URL

/-- A URL: a path, and the parameters after the question mark if there is one. -/
structure QueryURL where
  path : List Byte
  query : Option (List (List Byte × List Byte))
  path_free : ∀ delimiter ∈ ascii " ?&=", delimiter ∉ path
  query_free : ∀ pair ∈ query.getD [], ∀ delimiter ∈ ascii " ?&=",
    delimiter ∉ pair.1 ∧ delimiter ∉ pair.2

namespace QueryURL

def queryText (pairs : List (List Byte × List Byte)) : List Byte :=
  ascii "?" ++ (ascii "&").intercalate (pairs.map fun pair => pair.1 ++ ascii "=" ++ pair.2)

def text (url : QueryURL) : List Byte :=
  url.path ++ (url.query.map queryText).getD []

/-- The parameters; the last one wins for each key. -/
def params (url : QueryURL) : Fields :=
  (url.query.getD []).foldl (fun fields pair => Function.update fields pair.1 (some pair.2))
    fun _ => none

end QueryURL

theorem parseURL_of_no_ampersand (request : HttpRequest) (free : 38 ∉ request.url) :
    parseURL request = { request with uri := request.url } := by
  have single : Splits (ascii "&") request.url [request.url] :=
    .last fun ampersand => free ((List.singleton_infix_iff _ _).mp ampersand)
  rw [parseURL]
  by_cases empty : request.url = []
  · rw [empty, split_nil]
  · rw [split_of_splits (by decide) true single empty, kept_true]

theorem mem_uri_of_mem_first (request : HttpRequest) {first : List Byte} {others : List (List Byte)}
    (splits : Splits (ascii "&") request.url (first :: others)) {byte : Byte}
    (member : byte ∈ first) (inside : byte ∈ request.url) : byte ∈ (parseURL request).uri := by
  have some_left : request.url ≠ [] := List.ne_nil_of_mem inside
  rw [parseURL, split_of_splits (by decide) true splits some_left, kept_true]
  split
  case h_1 _ uri params shape =>
    obtain ⟨rfl, -⟩ := List.cons.inj shape
    exact member
  case h_2 => exact inside

theorem mem_first_part {path rest first : List Byte} {others : List (List Byte)} (free : 38 ∉ path)
    (splits : Splits (ascii "&") (path ++ 63 :: rest) (first :: others)) : 63 ∈ first := by
  generalize whole : path ++ 63 :: rest = url at splits
  cases splits with
  | last => simp [← whole]
  | @part _ after _ leads _ =>
    have aligned : path ++ 63 :: rest = first ++ 38 :: after := by
      simpa [ascii] using whole
    rcases List.append_eq_append_iff.mp aligned with ⟨more, longer, tail⟩ | ⟨more, shorter, tail⟩
    · cases more with
      | nil => simp at tail
      | cons byte more =>
        obtain ⟨rfl, -⟩ := List.cons.inj tail
        simp [longer]
    · cases more with
      | nil => simp at tail
      | cons byte more =>
        obtain ⟨rfl, -⟩ := List.cons.inj tail
        exact absurd (by simp [shorter]) free

end URL

section Routes

variable {Handler : Type}

def Accepted (method url : List Byte) : Prop :=
  method ≠ ascii "DELETE" ∧ endsWith url (ascii "/")

instance (method url : List Byte) : Decidable (Accepted method url) :=
  inferInstanceAs (Decidable (_ ∧ _))

def added (routes : List (Route Handler)) (method path : List Byte) : Option Handler :=
  routes.foldl (fun found route =>
    if Accepted route.method route.url ∧ route.method = method ∧ route.url = path then
      some route.handler
    else found) none

/-- The handler runs if there is one, otherwise the answer is 404. -/
def Answers (handled : Handled Handler) (handler : Option Handler) : Prop :=
  (∀ found, handler = some found → handled = .run found) ∧
    (handler = none → ∃ html, handled = .html 404 html)

/-- No other route shares the key of the method and the path. -/
def Alone (method path : List Byte) : Prop :=
  ∀ otherMethod otherPath, Accepted otherMethod otherPath →
    routeKey otherMethod otherPath = routeKey method path → otherMethod = method ∧ otherPath = path

theorem addRouter_apply (router : Router Handler) (method url : List Byte) (handler : Handler)
    (key : List Byte) :
    addRouter router method url handler key =
      if Accepted method url ∧ routeKey method url = key then some handler else router key := by
  unfold addRouter Accepted
  by_cases delete : method = ascii "DELETE"
  · simp [delete]
  · by_cases slash : endsWith url (ascii "/")
    · by_cases same : routeKey method url = key
      · simp [delete, slash, same]
      · simp [delete, slash, same, Ne.symm same]
    · simp [delete, slash]

theorem addRouters_of_alone {method path : List Byte} (alone : Alone method path)
    (routes : List (Route Handler)) :
    addRouters routes (routeKey method path) = added routes method path := by
  unfold addRouters added
  generalize start : (fun _ => none : Router Handler) = router
  generalize begins : (none : Option Handler) = found
  have agree : router (routeKey method path) = found := by rw [← start, ← begins]
  clear start begins
  induction routes generalizing router found with
  | nil => exact agree
  | cons route routes ih =>
    refine ih _ _ ?_
    have same : Accepted route.method route.url ∧
        routeKey route.method route.url = routeKey method path ↔
        Accepted route.method route.url ∧ route.method = method ∧ route.url = path := by
      constructor
      · intro ⟨accepted, key⟩
        exact ⟨accepted, alone _ _ accepted key⟩
      · intro ⟨accepted, rfl, rfl⟩
        exact ⟨accepted, rfl⟩
    simp only [addRouter_apply, agree, same]

theorem answers_handle (router : Router Handler) (context : HttpContext) :
    Answers (handle router context) (router (routeKey context.method context.path)) := by
  unfold handle Answers
  cases router (routeKey context.method context.path) <;> simp

theorem not_answers_of_shared {method path otherMethod otherPath : List Byte}
    (accepted : Accepted otherMethod otherPath)
    (shared : routeKey otherMethod otherPath = routeKey method path)
    (other : ¬ (otherMethod = method ∧ otherPath = path)) (handler : Handler) :
    ¬ Answers (handle (addRouters [⟨otherMethod, otherPath, handler⟩]) ⟨path, method⟩)
      (added [⟨otherMethod, otherPath, handler⟩] method path) := by
  have found : addRouters [⟨otherMethod, otherPath, handler⟩] (routeKey method path) =
      some handler := by
    simp [addRouters, addRouter_apply, accepted, shared]
  have absent : added [⟨otherMethod, otherPath, handler⟩] method path = none := by
    simp [added, other]
  intro answers
  obtain ⟨html, answered⟩ := answers.2 absent
  have ran := (answers_handle (addRouters [⟨otherMethod, otherPath, handler⟩]) ⟨path, method⟩).1
    handler found
  rw [ran] at answered
  cases answered

end Routes

structure QueryMessage extends HttpMessage where
  target : QueryURL
  url_eq : url = target.text

namespace QueryMessage

variable {Handler : Type}

/-- What the parsed request should hold, and what the router should do with it. -/
structure Served (message : QueryMessage) (request : HttpRequest)
    (routes : List (Route Handler)) : Prop where
  uri : request.uri = message.target.path
  urlParams : request.urlParams = message.target.params
  answers : Answers (handle (addRouters routes) (.ofRequest request))
    (added routes message.method message.target.path)

section

variable (message : QueryMessage)

include message

theorem ampersand_not_mem_path : 38 ∉ message.target.path :=
  message.target.path_free 38 (by decide)

theorem question_not_mem_path : 63 ∉ message.target.path :=
  message.target.path_free 63 (by decide)

theorem question_mem_uri {pairs : List (List Byte × List Byte)}
    (query : message.target.query = some pairs) (body : List Byte) :
    63 ∈ (message.parsed body).uri := by
  have url : message.url = message.target.path ++ 63 :: (ascii "&").intercalate
      (pairs.map fun pair => pair.1 ++ ascii "=" ++ pair.2) := by
    rw [message.url_eq, QueryURL.text, query]
    rfl
  obtain ⟨parts, splits⟩ := exists_splits (by decide : ascii "&" ≠ []) message.url
  cases parts with
  | nil => exact absurd rfl splits.ne_nil
  | cons first others =>
    have inside : 63 ∈ message.url := by simp [url]
    have early := mem_first_part message.ampersand_not_mem_path (url ▸ splits)
    exact mem_uri_of_mem_first (message.begun body) splits early inside

theorem ofRequest_parsed (body : List Byte) :
    HttpContext.ofRequest (message.parsed body) = ⟨message.url, message.method⟩ := by
  obtain ⟨url, method⟩ := message.parsed_context body
  rw [HttpContext.ofRequest, url, method]

theorem parsed_of_no_query (query : message.target.query = none) (body : List Byte) :
    message.url = message.target.path ∧ (message.parsed body).uri = message.target.path ∧
      (message.parsed body).urlParams = message.target.params := by
  have url : message.url = message.target.path := by
    simp [message.url_eq, QueryURL.text, query]
  have free : 38 ∉ message.url := url ▸ message.ampersand_not_mem_path
  have line := parseURL_of_no_ampersand (message.begun body) free
  refine ⟨url, ?_, ?_⟩
  · exact (congrArg HttpRequest.uri line).trans url
  · refine (congrArg HttpRequest.urlParams line).trans ?_
    simp [QueryURL.params, query, HttpMessage.begun]

end

/-- A request is served whatever the routes are exactly if it has no query and no other route
shares its key. -/
theorem routing_iff [Inhabited Handler] (message : QueryMessage) :
    (∀ routes : List (Route Handler), ∃ request, parse {} message.text = some request ∧
      message.Served request routes) ↔
    message.target.query = none ∧ Alone message.method message.target.path := by
  obtain ⟨body, parses⟩ := message.exists_parse_text
  simp only [parses, Option.some.injEq, exists_eq_left']
  constructor
  · intro served
    have query : message.target.query = none := by
      cases query : message.target.query with
      | none => rfl
      | some pairs =>
        have question := message.question_mem_uri query body
        rw [(served []).uri] at question
        exact absurd question message.question_not_mem_path
    refine ⟨query, ?_⟩
    intro otherMethod otherPath accepted shared
    by_contra other
    have answers := (served [⟨otherMethod, otherPath, default⟩]).answers
    rw [ofRequest_parsed, (message.parsed_of_no_query query body).1] at answers
    exact not_answers_of_shared accepted shared other default answers
  · intro ⟨query, alone⟩ routes
    obtain ⟨url, uri, urlParams⟩ := message.parsed_of_no_query query body
    refine ⟨uri, urlParams, ?_⟩
    rw [ofRequest_parsed, url, ← addRouters_of_alone alone]
    exact answers_handle _ _

def namedURL : QueryURL where
  path := ascii "/foo/"
  query := some [(ascii "name", ascii "pgj")]
  path_free := by decide +kernel
  query_free := by decide +kernel

def namedMessage : QueryMessage where
  method := ascii "GET"
  url := ascii "/foo/?name=pgj"
  httpVersion := ascii "HTTP/1.1"
  headers := []
  body := []
  method_space := HttpMessage.getMethod_space
  url_space := by decide +kernel
  httpVersion_space := HttpMessage.version_space
  one_line := by decide +kernel
  wellFormed := by simp
  distinct := by simp
  target := namedURL
  url_eq := by decide +kernel

/-- The parameter is not found, and the route of the path is not taken. -/
theorem routing_misses_query :
    (parse {} namedMessage.text).map (fun request =>
      (request.uri, request.urlParams (ascii "name"),
        handle (addRouters [⟨ascii "GET", ascii "/foo/", ()⟩]) (.ofRequest request))) =
    some (ascii "/foo/?name=pgj", none,
      .html 404 (ascii "404 Not Found: GET not at /foo/?name=pgj\n")) := by
  decide +kernel

end QueryMessage

end Bitdb.Http
