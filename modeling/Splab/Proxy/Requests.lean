import Splab.Proxy.Process
import Splab.Proxy.Searches
import Splab.Proxy.Lengths

namespace Splab.Proxy
open CString

/-- A request with an absolute URI, up to its body. -/
structure Request where
  method : List UInt8
  scheme : List UInt8
  address : List UInt8
  version : List UInt8
  fields : List (List UInt8)
  methodPlain : method ≠ [] ∧ ∀ b ∈ method, b ≠ 32 ∧ b ≠ 0 ∧ b ≠ 10
  http : scheme.map tolower = ascii "http://"
  addressPlain : ∀ b ∈ address, b ≠ 32 ∧ b ≠ 0 ∧ b ≠ 10
  versionStart : ∃ number, version = 72 :: number ∧ 10 ∉ number
  short : method.length + scheme.length + address.length + version.length + 4 < maxLine
  headers : ∀ h ∈ fields, HeaderField h

def Request.uri (r : Request) : List UInt8 := r.scheme ++ r.address

def Request.line (r : Request) : List UInt8 := r.method ++ 32 :: (r.uri ++ 32 :: (r.version ++ crlf))

/-- The field is `Content-Length: n`. -/
def declares (h : List UInt8) : Option Nat :=
  if (h.take 14).map tolower = ascii "content-length" ∧ (h.drop 14).take 2 = ascii ": " ∧ h.drop 16 ≠ [] ∧
      ∀ b ∈ h.drop 16, isdigit b = true then
    some (digitsValue (h.drop 16))
  else none

def declaredLength (fields : List (List UInt8)) : Option Nat := (fields.filterMap declares).head?

section Line
variable {r : Request} {s t : List UInt8} {literal : List UInt8}

theorem tolower_plain {b : UInt8} {text : List UInt8} (folded : tolower b ∈ text)
    (plain : ∀ c ∈ text, c ≠ 32 ∧ c ≠ 0 ∧ c ≠ 10) : b ≠ 32 ∧ b ≠ 0 ∧ b ≠ 10 := by
  refine ⟨?_, ?_, ?_⟩ <;> rintro rfl
  · exact (plain _ folded).1 rfl
  · exact (plain _ folded).2.1 rfl
  · exact (plain _ folded).2.2 rfl

theorem Request.uriPlain (r : Request) : ∀ b ∈ r.uri, b ≠ 32 ∧ b ≠ 0 ∧ b ≠ 10 := by
  intro b mem
  rcases List.mem_append.mp mem with inScheme | inAddress
  · have folded : tolower b ∈ ascii "http://" := by
      rw [← r.http]
      exact List.mem_map_of_mem inScheme
    exact tolower_plain folded (by rw [ascii_http]; decide +kernel)
  · exact r.addressPlain b inAddress

/-- The scan for the port ends at the version at the latest. -/
theorem parsePort_decided {c : UInt8} {number : List UInt8} :
    ∃ port, parsePort (c :: (s ++ 72 :: number)) = .ok port := by
  rw [parsePort]
  split
  · cases value : atoi (s ++ 72 :: number) with
    | none => exact absurd value (atoi_stop rfl rfl rfl)
    | some port => exact ⟨port, rfl⟩
  · exact ⟨80, rfl⟩

theorem Request.parse (r : Request) : ∃ target, parseRequest r.line = .ok (some target) ∧ target.method = r.method := by
  obtain ⟨number, version, _⟩ := r.versionStart
  have inside : (0 : UInt8) ∉ r.address := fun zero => (r.addressPlain 0 zero).2.1 rfl
  obtain ⟨i, bound, hostend⟩ := @find_exists (· ∈ ascii " :/\r\n") (r.version ++ crlf) r.address 32 (by decide) inside
  obtain ⟨host, c, t, split, length, ends, plain⟩ := find_eq_some.mp hostend
  -- the version is behind the host name in any case
  have behind : ∃ s, t = s ++ 72 :: (number ++ crlf) := by
    have dropped := congrArg (List.drop i) split
    rw [← length, List.drop_left, length, List.drop_append_of_le_length bound, version] at dropped
    cases left : r.address.drop i with
    | nil =>
      rw [left] at dropped
      exact ⟨[], (List.cons.inj dropped).2.symm⟩
    | cons d s =>
      rw [left] at dropped
      exact ⟨s ++ [32], by simpa using (List.cons.inj dropped).2.symm⟩
  obtain ⟨s, rfl⟩ := behind
  obtain ⟨port, portRead⟩ := @parsePort_decided s c (number ++ crlf)
  refine ⟨_, RequestCut.parse ⟨r.method, r.scheme, host, c, _, r.uri, r.version ++ crlf, ?_, ?_, ?_, r.http, ?_, ?_, ?_⟩
    portRead, rfl⟩
  · rw [← split, Request.line, Request.uri, List.append_assoc]
  · rw [← split, Request.uri, List.append_assoc]
  · exact fun b mem => ⟨(r.methodPlain.2 b mem).1, (r.methodPlain.2 b mem).2.1⟩
  · exact fun b mem => ⟨of_decide_eq_false (plain b mem).1, (plain b mem).2⟩
  · exact of_decide_eq_true ends
  · exact fun b mem => ⟨(r.uriPlain b mem).1, (r.uriPlain b mem).2.1⟩

end Line

theorem isPost_overwrite {method buf : List UInt8} {post : Bool}
    (test : strncasecmp method (ascii "post") = some post) :
    isPost (overwrite buf method) = .ok post := by
  rw [isPost, overwrite, strncasecmp, agrees_append test]
  rfl

section Methods
variable {scratch : Scratch} {method text : List UInt8}

/-- The array is too long for a test of the method to run over its end. -/
theorem method_test (short : text.length ≤ maxLine) :
    ∃ same, scanned (strncasecmp (overwrite scratch.method.bytes method) text) = .ok same := by
  have long : text.length ≤ (overwrite scratch.method.bytes method).length := by
    rw [overwrite, List.length_append, List.length_drop, scratch.method.size]
    omega
  obtain ⟨same, eq⟩ := Option.ne_none_iff_exists'.mp (@agrees_long tolower _ _ long)
  exact ⟨same, by rw [strncasecmp, eq]; rfl⟩

/-- The arrays with some text at the start of the one for the method. -/
def Scratch.withMethod (text : List UInt8) (short : text.length ≤ maxLine) : Scratch :=
  { Scratch.fill 0 with
    method := ⟨overwrite (List.replicate maxLine 0) text, overwrite_length List.length_replicate short⟩ }

theorem overwrite_lower : (overwrite scratch.method.bytes method).map tolower =
    method.map tolower ++ (scratch.method.bytes.drop method.length).map tolower := List.map_append

/-- The start of a method is completed by what the array holds, or not. -/
theorem test_part (lower : text.map tolower = text) (plain : 0 ∉ text) (short : text.length ≤ maxLine)
    (undecided : strncasecmp method text = none) (same : Bool) :
    ∃ scratch : Scratch, strncasecmp (overwrite scratch.method.bytes method) text = some same := by
  obtain ⟨starts, part⟩ := agrees_eq_none_iff.mp undecided
  rw [lower] at starts part
  have less : method.length < text.length := by
    by_contra long
    have lengths : text.length ≤ (method.map tolower).length := by
      rw [List.length_map]
      exact Nat.le_of_not_lt long
    exact starts (part.eq_of_length_le lengths ▸ List.prefix_rfl)
  cases same with
  | true =>
    refine ⟨.withMethod text short, ?_⟩
    obtain ⟨tail, whole⟩ := part
    have left : text.drop method.length = tail := by
      rw [← whole, List.drop_left' (List.length_map _)]
    have lower' : tail.map tolower = tail := by
      rw [← left, List.map_drop, lower]
    have bytes : (Scratch.withMethod text short).method.bytes =
        text ++ (List.replicate maxLine 0).drop text.length := rfl
    rw [strncasecmp, agrees_eq_true_iff, lower, overwrite_lower, bytes, List.drop_append_of_le_length less.le, left,
      List.map_append, lower', ← List.append_assoc, whole]
    exact List.prefix_append ..
  | false =>
    refine ⟨.fill 0, ?_⟩
    have long : text.length ≤ (overwrite (Scratch.fill 0).method.bytes method).length := by
      rw [overwrite, List.length_append, List.length_drop, (Scratch.fill 0).method.size]
      omega
    obtain ⟨same, eq⟩ := Option.ne_none_iff_exists'.mp (@agrees_long tolower _ _ long)
    cases same with
    | false => exact eq
    | true =>
      -- the zero byte behind the method would be a letter
      rw [agrees_eq_true_iff, lower, overwrite_lower] at eq
      obtain ⟨k, room⟩ : ∃ k, text.length - (method.map tolower).length = k + 1 :=
        ⟨text.length - method.length - 1, by rw [List.length_map]; omega⟩
      obtain ⟨m, more⟩ : ∃ m, maxLine - method.length = m + 1 := ⟨maxLine - method.length - 1, by omega⟩
      refine absurd ?_ plain
      rw [List.prefix_iff_eq_take.mp eq, List.take_append, room, Scratch.fill, Buffer.fill, List.drop_replicate, more]
      simp [tolower]

end Methods

section Sending
variable {r : Request} {parsed : Parsed} {scratch : Scratch} {s : Conn} {bytes : List UInt8}
  {fields : List (List UInt8)} {post : Bool}

theorem Request.takeLine (r : Request) (rest : List (Option UInt8)) :
    takeLine maxLine (r.line.map some ++ rest) = (r.line, .line, rest) := by
  obtain ⟨number, version, plain⟩ := r.versionStart
  have split : r.line = (r.method ++ 32 :: (r.uri ++ 32 :: (r.version ++ [13]))) ++ [10] := by
    simp [Request.line, crlf]
  have short := r.short
  rw [split]
  refine takeLine_line ?_ ?_
  · intro newline
    rw [version] at newline
    simp only [List.mem_append, List.mem_cons, List.not_mem_nil, or_false, List.cons_append] at newline
    rcases newline with inMethod | blank | inUri | blank | letter | inNumber | cr
    · exact (r.methodPlain.2 10 inMethod).2.2 rfl
    · cases blank
    · exact (r.uriPlain 10 inUri).2.2 rfl
    · cases blank
    · cases letter
    · exact plain inNumber
    · cases cr
  · simp only [List.length_append, List.length_cons, List.length_nil, Request.uri]
    omega

/-- From the header on: its scans may crash the thread, and only a POST is followed by a body. -/
theorem sendRest_block (size : s.buf.length = maxLine) (all : ∀ h ∈ fields, HeaderField h)
    (stream : s.input .client = (headerBlock fields).map some ++ bytes.map some)
    (clean : .failed ∉ (s.output .server).writes) (test : isPost parsed.method = .ok post) :
    match lengthRead s.buf 0 fields with
    | .ok content => ∃ s', sendRest parsed s = .ok () s' ∧
        (s'.output .server).sent = (s.output .server).sent ++ headerBlock fields ++
          if post = true ∧ content ≠ 0 then takeLimit (bodyLimit content) bytes else []
    | .error fault => ∃ s' part, sendRest parsed s = .error fault s' ∧
        (s'.output .server).sent = (s.output .server).sent ++ part ∧ part.length < (headerBlock fields).length := by
  have block := relayHeader_block size all stream clean
  cases read : lengthRead s.buf 0 fields with
  | error fault =>
    rw [read] at block
    obtain ⟨s', part, run, written, short⟩ := block
    exact ⟨s', part, by rw [sendRest, bind_run, run], written, short⟩
  | ok content =>
    rw [read] at block
    obtain ⟨sum, buf, later, size', clean', run⟩ := block
    have rest := @sendRest_header s parsed _ _ _ run
    simp only [test] at rest
    by_cases body : post = true ∧ content ≠ 0
    · rw [if_pos body] at rest
      have range : IntRange content := lengthRead_range (by unfold IntRange; omega) read
      obtain ⟨input', later', buf', _, _, poured⟩ := @relayContent_clean content maxLine
        (s.after .client .server (bytes.map some) ⟨(s.output .server).sent ++ headerBlock fields, later⟩ buf)
        .client .server bytes (by decide) (le_of_eq size'.symm) after_input (by rwa [after_output]) range
      refine ⟨_, rest.trans (bind_of_runs ⟨_, _, poured, rfl, rfl⟩), ?_⟩
      rw [after_output, if_pos body, after_output]
    · rw [if_neg body] at rest
      refine ⟨_, rest, ?_⟩
      rw [after_output, if_neg body, List.append_nil]

/-- The request half of `process` for such a request. -/
theorem sendRequest_run (size : s.buf.length = maxLine)
    (stream : s.input .client = (r.line ++ headerBlock r.fields ++ bytes).map some)
    (clean : .failed ∉ (s.output .server).writes) {post : Bool}
    (test : isPost (overwrite scratch.method.bytes r.method) = .ok post) :
    match lengthRead (overwrite s.buf r.line) 0 r.fields with
    | .ok content => ∃ target : Target, ∃ s', target.method = r.method ∧
        sendRequest scratch true s = .ok (some (target.store scratch)) s' ∧
        (s'.output .server).sent = (s.output .server).sent ++ r.line ++ headerBlock r.fields ++
          if post = true ∧ content ≠ 0 then takeLimit (bodyLimit content) bytes else []
    | .error fault => ∃ s' part, sendRequest scratch true s = .error fault s' ∧
        (s'.output .server).sent = (s.output .server).sent ++ r.line ++ part ∧
          part.length < (headerBlock r.fields).length := by
  obtain ⟨target, parse, method⟩ := r.parse
  have parsed : parseRequest (overwrite s.buf r.line) = .ok (some target) :=
    (local_parseRequest _ _ (.of_ok parse)).trans parse
  have length : (overwrite s.buf r.line).length = maxLine := overwrite_length size (takeLine_length (r.takeLine []))
  have line : takeLine maxLine (s.input .client) = (r.line, .line, (headerBlock r.fields ++ bytes).map some) := by
    rw [stream, List.append_assoc, List.map_append]
    exact r.takeLine _
  obtain ⟨later, still, all⟩ := @sendAll_clean _ (s.output .server).sent r.line clean
  rw [sendRequest_line size line fun _ => by simp [Request.line]]
  simp only [parsed, all, if_true]
  -- the state when the request line is sent
  generalize opened : (s.after .client .server ((headerBlock r.fields ++ bytes).map some)
    ⟨(s.output .server).sent ++ r.line, later⟩ (overwrite s.buf r.line)).dial _ = sent
  have input : sent.input .client = (headerBlock r.fields).map some ++ bytes.map some := by
    rw [← opened, dial_input, after_input, List.map_append]
  have output : sent.output .server = ⟨(s.output .server).sent ++ r.line, later⟩ := by
    rw [← opened, dial_output, after_output]
  have buf : sent.buf = overwrite s.buf r.line := by
    rw [← opened, dial_buf, after_buf]
  have stored : isPost (target.store scratch).method = .ok post := by
    rw [Target.store, method]
    exact test
  have rest := sendRest_block (by rw [buf, length]) r.headers input (by rw [output]; exact still) stored
  rw [buf, output] at rest
  cases read : lengthRead (overwrite s.buf r.line) 0 r.fields with
  | error fault =>
    rw [read] at rest
    obtain ⟨s', part, run, written, short⟩ := rest
    exact ⟨s', part, by rw [bind_run, run], written, short⟩
  | ok content =>
    rw [read] at rest
    obtain ⟨s', run, written⟩ := rest
    exact ⟨target, s', method, bind_of_runs ⟨_, _, run, rfl, rfl⟩, written⟩

end Sending

section Declared
variable {h buf : List UInt8} {fields : List (List UInt8)} {content : Int} {n : Nat}

theorem declares_split (declared : declares h = some n) : ∃ name digits, h = name ++ 58 :: 32 :: digits ∧
    name.map tolower = ascii "content-length" ∧ digits ≠ [] ∧ (∀ b ∈ digits, isdigit b = true) ∧
      digitsValue digits = n := by
  unfold declares at declared
  split at declared
  · next form =>
    obtain ⟨name, separator, nonempty, digits⟩ := form
    cases declared
    refine ⟨h.take 14, h.drop 16, ?_, name, nonempty, digits, rfl⟩
    have inner : h.drop 14 = (h.drop 14).take 2 ++ (h.drop 14).drop 2 := (List.take_append_drop 2 _).symm
    rw [separator, List.drop_drop] at inner
    calc h = h.take 14 ++ h.drop 14 := (List.take_append_drop 14 h).symm
      _ = h.take 14 ++ 58 :: 32 :: h.drop 16 := by rw [inner]; rfl
  · cases declared

theorem declares_named (declared : declares h = some n) : named h = true := by
  unfold declares at declared
  split_ifs at declared with form
  exact decide_eq_true form.1

theorem numberIn_declared (declared : declares h = some n) :
    numberIn (overwrite buf (h ++ crlf)) = some (toInt n) := by
  obtain ⟨name, digits, rfl, folded, nonempty, all, rfl⟩ := declares_split declared
  have bytes : overwrite buf (name ++ 58 :: 32 :: digits ++ crlf) =
      name ++ 58 :: 32 :: ([] ++ digits ++ 13 :: (10 :: buf.drop (name ++ 58 :: 32 :: digits ++ crlf).length)) := by
    simp [overwrite, crlf]
  rw [bytes]
  exact numberIn_field folded (by simp) nonempty all (by decide)

/-- The length that is declared is read. -/
theorem headerLength_declared (declared : declares h = some n) (small : n < 2 ^ 31) :
    headerLength (overwrite buf (h ++ crlf)) = .ok (some (n : Int)) := by
  have yes : named (overwrite buf (h ++ crlf)) = true := named_overwrite.trans (declares_named declared)
  have read := @headerLength_number _ [] _ yes (numberIn_declared declared)
  rwa [List.append_nil, toInt_small small] at read

/-- The lengths that the fields declare, if there are several, are the same. -/
def Consistent (fields : List (List UInt8)) : Prop := ∀ h ∈ fields, ∀ n ∈ declares h, declaredLength fields = some n

theorem headerLength_plain (other : strncasecmp (h ++ crlf) (ascii "Content-Length") = some false) :
    headerLength (overwrite buf (h ++ crlf)) = .ok none := by
  rw [headerLength, overwrite, strncasecmp, agrees_append other]
  rfl

theorem lengthRead_last
    (plain : ∀ h ∈ fields, declares h = none → strncasecmp (h ++ crlf) (ascii "Content-Length") = some false)
    (small : ∀ h ∈ fields, ∀ n ∈ declares h, n < 2 ^ 31) :
    lengthRead buf content fields = .ok ((fields.filterMap declares).getLast?.elim content Nat.cast) := by
  induction fields generalizing buf content with
  | nil => rfl
  | cons h fields ih =>
    obtain ⟨plainHere, plain⟩ := List.forall_mem_cons.mp plain
    obtain ⟨smallHere, small⟩ := List.forall_mem_cons.mp small
    rw [lengthRead]
    cases declared : declares h with
    | none =>
      rw [headerLength_plain (plainHere declared), ok_bind, List.filterMap_cons_none declared]
      exact ih plain small
    | some n =>
      rw [headerLength_declared declared (smallHere n declared), ok_bind, List.filterMap_cons_some declared]
      refine (ih plain small).trans ?_
      rw [List.getLast?_cons]
      cases (fields.filterMap declares).getLast? <;> rfl

/-- The length that is read is the declared one. -/
theorem lengthRead_declared
    (plain : ∀ h ∈ fields, declares h = none → strncasecmp (h ++ crlf) (ascii "Content-Length") = some false)
    (consistent : Consistent fields) (small : ∀ n ∈ declaredLength fields, n < 2 ^ 31) :
    lengthRead buf content fields = .ok ((declaredLength fields).elim content Nat.cast) := by
  rw [lengthRead_last plain fun h mem n declared => small n (consistent h mem n declared)]
  cases last : (fields.filterMap declares).getLast? with
  | none =>
    rw [List.getLast?_eq_none_iff] at last
    rw [declaredLength, last]
    rfl
  | some n =>
    obtain ⟨h, mem, declared⟩ := List.mem_filterMap.mp (List.mem_of_getLast? last)
    rw [consistent h mem n declared]

end Declared

section Sample

/-- A short request with `Content-Length: 1` for `http://a/`. -/
def sample (method : List UInt8) (plain : method ≠ [] ∧ ∀ b ∈ method, b ≠ 32 ∧ b ≠ 0 ∧ b ≠ 10)
    (short : method.length ≤ 16) :
    Request where
  method := method
  scheme := ascii "http://"
  address := ascii "a/"
  version := ascii "HTTP/1.0"
  fields := [ascii "Content-Length: 1"]
  methodPlain := plain
  http := rfl
  addressPlain := by decide +kernel
  versionStart := ⟨ascii "TTP/1.0", rfl, by decide +kernel⟩
  short := by
    have lengths : (ascii "http://").length = 7 ∧ (ascii "a/").length = 2 ∧ (ascii "HTTP/1.0").length = 8 :=
      ⟨rfl, rfl, rfl⟩
    unfold maxLine
    omega
  headers := by
    rw [List.forall_mem_singleton]
    exact ⟨nofun, by decide +kernel, by decide +kernel⟩

section Facts
variable {method : List UInt8} {plain : method ≠ [] ∧ ∀ b ∈ method, b ≠ 32 ∧ b ≠ 0 ∧ b ≠ 10}
  {short : method.length ≤ 16}

theorem sample_declared : declaredLength (sample method plain short).fields = some 1 := by
  change declaredLength [ascii "Content-Length: 1"] = some 1
  decide +kernel

theorem sample_declares : ∀ h ∈ (sample method plain short).fields, declares h = some 1 := by
  change ∀ h ∈ [ascii "Content-Length: 1"], declares h = some 1
  decide +kernel

theorem sample_plain : ∀ h ∈ (sample method plain short).fields,
    declares h = none → strncasecmp (h ++ crlf) (ascii "Content-Length") = some false := by
  intro h mem undeclared
  rw [sample_declares h mem] at undeclared
  cases undeclared

theorem sample_consistent : Consistent (sample method plain short).fields := by
  intro h mem n declared
  rw [sample_declares h mem] at declared
  cases declared
  exact sample_declared

theorem sample_small : ∀ n ∈ declaredLength (sample method plain short).fields, n < 2 ^ 31 := by
  rw [sample_declared]
  intro n mem
  cases mem
  decide

end Facts

/-- The client sends the request and some bytes behind it; the server says nothing. -/
def Request.net (r : Request) (bytes : List UInt8) : Net where
  input side := if side = .client then (r.line ++ headerBlock r.fields ++ bytes).map some else []
  writes _ := []
  connects := true

end Sample

end Splab.Proxy
