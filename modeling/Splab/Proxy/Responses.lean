import Splab.Proxy.Forwarding

namespace Splab.Proxy
open CString

/-- A final response and the bytes that the server sends behind its header. -/
structure Response where
  version : List UInt8
  digits : List UInt8
  tail : List UInt8
  fields : List (List UInt8)
  rest : List UInt8
  versionPlain : ∀ b ∈ version, b ≠ 32 ∧ b ≠ 0 ∧ b ≠ 10
  threeDigits : digits.length = 3 ∧ ∀ b ∈ digits, isdigit b = true
  final : 200 ≤ digitsValue digits ∧ digitsValue digits < 600
  tailPlain : 10 ∉ tail ∧ ∀ b ∈ tail.head?, isdigit b = false
  short : version.length + tail.length + 6 < maxLine
  headers : ∀ h ∈ fields, HeaderField h
  spelled : ∀ h ∈ fields, (h.takeWhile (· ≠ 58)).map tolower = ascii "content-length" → declares h ≠ none
  consistent : Consistent fields

def Response.line (p : Response) : List UInt8 := p.version ++ 32 :: (p.digits ++ (p.tail ++ crlf))

def Response.code (p : Response) : Nat := digitsValue p.digits

/-- The response has no body, whatever its header says. -/
def Response.Bare (p : Response) : Prop := p.code = 204 ∨ p.code = 304

instance (p : Response) : Decidable p.Bare := inferInstanceAs (Decidable (_ ∨ _))

/-- The length of the body as HTTP defines it; it ends with the connection if there is none. -/
def Response.declaredLimit (p : Response) (method : List UInt8) : Option Nat :=
  if method = ascii "HEAD" ∨ p.Bare then some 0 else declaredLength p.fields

/-- The length after which the proxy stops. -/
def Response.readLimit (p : Response) (head : Bool) (content : Int) : Option Nat :=
  if head = true ∨ p.Bare then some 0 else bodyLimit content

/-- The 32 bits that `atoi` gives for the digits of a number; it stops at the largest `long`. -/
def lowBits (n : Nat) : Nat := min n (2 ^ 63 - 1) % 2 ^ 32

/-- How a response with a body comes to its end at the right place. -/
inductive Response.LengthKept (p : Response) : Prop
  /-- no line of its header begins with Content-Length -/
  | undeclared (other : ∀ h ∈ p.fields, named h = false)
  /-- the last line that does declares a length, which is not 0 and has 32 bits -/
  | declared {before after : List (List UInt8)} {h : List UInt8} {n : Nat} (split : p.fields = before ++ h :: after)
      (length : declares h = some n) (last : ∀ g ∈ after, named g = false) (positive : 0 < n) (small : n < 2 ^ 32)
  /-- it declares a longer one, and the server sends no more than this and than what an `int` holds of it -/
  | wide {before after : List (List UInt8)} {h : List UInt8} {n : Nat} (split : p.fields = before ++ h :: after)
      (length : declares h = some n) (last : ∀ g ∈ after, named g = false) (wide : 2 ^ 32 ≤ n)
      (told : p.rest.length ≤ n) (low : lowBits n = 0 ∨ p.rest.length ≤ lowBits n)
  /-- it has another name, and the number behind the first blank from its start on happens to be the declared length,
  or the server sends no more than both of them -/
  | other {before after : List (List UInt8)} {h : List UInt8} {m : Int} (split : p.fields = before ++ h :: after)
      (begins : named h = true) (last : ∀ g ∈ after, named g = false) (other : declares h = none)
      (number : numberIn (overwrite (leftBy p.line before) (h ++ crlf)) = some m)
      (idle : bodyLimit m = declaredLength p.fields ∨
        (∀ n ∈ bodyLimit m, p.rest.length ≤ n) ∧ ∀ n ∈ declaredLength p.fields, p.rest.length ≤ n)

/-- A response whose end the proxy finds, for a request with this method. -/
structure Response.Frameable (p : Response) (method : List UInt8) : Prop where
  complete : ∀ v ∈ bufferViews p.line p.fields, named v = true → numberIn v ≠ none
  body : p.rest = [] ∨ p.Bare ∨ method = ascii "HEAD" ∨
    (ascii "head" <+: method.map tolower ∧ declaredLength p.fields = some 0) ∨
    (¬ascii "head" <+: method.map tolower ∧ ¬method.map tolower <+: ascii "head" ∧ p.LengthKept)

/-- The exchange of a request with this method for the response, with all bytes taken by the client. -/
structure Net.Answers (net : Net) (scratch : Scratch) (method : List UInt8) (p : Response) : Prop where
  request : ∃ tail rest, takeLine maxLine (net.input .client) = (method ++ 32 :: tail, .line, rest)
  sent : ∃ parsed s, sendRequest scratch net.connects (net.start scratch) = .ok (some parsed) s
  response : net.input .server = (p.line ++ headerBlock p.fields ++ p.rest).map some
  clean : .failed ∉ net.writes .client

/-- The client gets the response up to its end in every such exchange. -/
def Response.Framed (p : Response) (method : List UInt8) : Prop := ∀ net scratch, Net.Answers net scratch method p →
  ((net.exchange scratch).output .client).sent =
    p.line ++ headerBlock p.fields ++ takeLimit (p.declaredLimit method) p.rest

/-- Two lengths that end the body at the same place. -/
def SameEnd (bytes : List UInt8) (first second : Option Nat) : Prop :=
  first = second ∨ (∀ n ∈ first, bytes.length ≤ n) ∧ (∀ n ∈ second, bytes.length ≤ n)

/-- The length that the last line which begins with Content-Length shows behind its first blank. -/
def Response.shownLimit (p : Response) : Option Nat := bodyLimit (lastNumber 0 (bufferViews p.line p.fields))

section Line
variable {p : Response} {buf : List UInt8}

theorem Response.takeLine (p : Response) (rest : List (Option UInt8)) :
    takeLine maxLine (p.line.map some ++ rest) = (p.line, .line, rest) := by
  have split : p.line = (p.version ++ 32 :: (p.digits ++ (p.tail ++ [13]))) ++ [10] := by
    simp [Response.line, crlf]
  have short := p.short
  have three := p.threeDigits.1
  rw [split]
  refine takeLine_line ?_ ?_
  · intro newline
    simp only [List.mem_append, List.mem_cons, List.not_mem_nil, or_false] at newline
    rcases newline with inVersion | blank | inDigits | inTail | cr
    · exact (p.versionPlain 10 inVersion).2.2 rfl
    · cases blank
    · cases p.threeDigits.2 10 inDigits
    · exact p.tailPlain.1 inTail
    · cases cr
  · simp only [List.length_append, List.length_cons, List.length_nil]
    omega

theorem Response.parse (p : Response) : parseResponse (overwrite buf p.line) = .ok (p.code : Int) := by
  have bytes : overwrite buf p.line =
      p.version ++ 32 :: ([] ++ p.digits ++ (p.tail ++ (crlf ++ buf.drop p.line.length))) := by
    simp [overwrite, Response.line]
  have blank : strchr (overwrite buf p.line) 32 = some (some p.version.length) := by
    rw [bytes]
    exact find_hit (by decide) fun b mem => ⟨decide_eq_false (p.versionPlain b mem).1, (p.versionPlain b mem).2.1⟩
  have number : ∃ c t, p.tail ++ (crlf ++ buf.drop p.line.length) = c :: t ∧ isdigit c = false := by
    cases tail : p.tail with
    | nil => exact ⟨13, _, rfl, by decide⟩
    | cons c tail' => exact ⟨c, _, rfl, p.tailPlain.2 c (by rw [tail]; rfl)⟩
  obtain ⟨c, t, behind, other⟩ := number
  have value : (overwrite buf p.line).drop (p.version.length + 1) = [] ++ p.digits ++ c :: t := by
    rw [bytes, behind, List.drop_append]
    simp
  have nonempty : p.digits ≠ [] := by
    intro none
    have three := p.threeDigits.1
    rw [none] at three
    cases three
  have final := p.final
  unfold parseResponse
  simp only [blank, found, ok_bind, value]
  rw [atoi_digits (by simp) nonempty p.threeDigits.2 other, toInt_small (by omega)]
  rfl

end Line

section Relaying
variable {p : Response} {parsed : Parsed} {s : Conn} {head : Bool}

/-- From the header on: its scans may crash the thread, and a bare response has no body. -/
theorem relayRest_block (size : s.buf.length = maxLine)
    (stream : s.input .server = (headerBlock p.fields).map some ++ p.rest.map some)
    (clean : .failed ∉ (s.output .client).writes) (test : isHead parsed.method = .ok head) (len : Int) :
    match lengthRead s.buf 0 p.fields with
    | .ok content => ((finalState (relayRest parsed p.code len s)).output .client).sent =
        (s.output .client).sent ++ headerBlock p.fields ++ takeLimit (p.readLimit head content) p.rest
    | .error _ => ∃ part, ((finalState (relayRest parsed p.code len s)).output .client).sent =
        (s.output .client).sent ++ part ∧ part.length < (headerBlock p.fields).length := by
  have block := relayHeader_block size p.headers stream clean
  cases read : lengthRead s.buf 0 p.fields with
  | error fault =>
    rw [read] at block
    obtain ⟨s', part, run, written, short⟩ := block
    have rest : relayRest parsed p.code len s = .error fault s' := by
      rw [relayRest, bind_run, run]
    exact ⟨part, by rw [rest]; exact written, short⟩
  | ok content =>
    rw [read] at block
    obtain ⟨sum, buf, later, size', clean', run⟩ := block
    have rest := @relayRest_header s parsed _ _ p.code len _ run
    simp only [test] at rest
    have final : 200 ≤ p.code := p.final.1
    have body : (head = false ∧ 2 ≤ (p.code : Int).tdiv 100 ∧ (p.code : Int) ≠ 204 ∧ (p.code : Int) ≠ 304) ↔
        ¬(head = true ∨ p.Bare) := by
      have two : 2 ≤ (p.code : Int).tdiv 100 := by
        rw [Int.tdiv_eq_ediv_of_nonneg (Int.natCast_nonneg _)]
        omega
      simp only [two, true_and, Response.Bare, not_or, Bool.not_eq_true]
      exact and_congr_right fun _ => by omega
    by_cases none : head = true ∨ p.Bare
    · rw [if_neg (body.not.mpr (not_not.mpr none))] at rest
      rw [rest]
      simp [finalState, Response.readLimit, none, takeLimit]
    · rw [if_pos (body.mpr none)] at rest
      have range : IntRange content := lengthRead_range (by unfold IntRange; omega) read
      obtain ⟨input', later', buf', _, _, poured⟩ := @relayContent_clean content maxLine
        (s.after .server .client (p.rest.map some) ⟨(s.output .client).sent ++ headerBlock p.fields, later⟩ buf)
        .server .client p.rest (by decide) (le_of_eq size'.symm) after_input (by rwa [after_output]) range
      have ended := rest.trans (bind_of_runs ⟨_, _, poured, rfl, rfl⟩)
      rw [ended]
      simp only [Response.readLimit, if_neg none, after_output]
      exact congrArg Output.sent after_output

/-- What the client gets of a response. -/
theorem relayResponse_client (size : s.buf.length = maxLine)
    (stream : s.input .server = (p.line ++ headerBlock p.fields ++ p.rest).map some)
    (clean : .failed ∉ (s.output .client).writes) (test : isHead parsed.method = .ok head) :
    match lengthRead (overwrite s.buf p.line) 0 p.fields with
    | .ok content => ((finalState (relayResponse parsed s)).output .client).sent =
        (s.output .client).sent ++ p.line ++ headerBlock p.fields ++ takeLimit (p.readLimit head content) p.rest
    | .error _ => ∃ part, ((finalState (relayResponse parsed s)).output .client).sent =
        (s.output .client).sent ++ p.line ++ part ∧ part.length < (headerBlock p.fields).length := by
  have length : (overwrite s.buf p.line).length = maxLine := overwrite_length size (takeLine_length (p.takeLine []))
  have line : takeLine maxLine (s.input .server) = (p.line, .line, (headerBlock p.fields ++ p.rest).map some) := by
    rw [stream, List.append_assoc, List.map_append]
    exact p.takeLine _
  obtain ⟨later, still, all⟩ := @sendAll_clean _ (s.output .client).sent p.line clean
  rw [relayResponse_line size line fun _ => by simp [Response.line]]
  simp only [p.parse, all, if_true]
  -- the state when the status line is sent
  generalize opened : s.after .server .client ((headerBlock p.fields ++ p.rest).map some)
    ⟨(s.output .client).sent ++ p.line, later⟩ (overwrite s.buf p.line) = sent
  have input : sent.input .server = (headerBlock p.fields).map some ++ p.rest.map some := by
    rw [← opened, after_input, List.map_append]
  have output : sent.output .client = ⟨(s.output .client).sent ++ p.line, later⟩ := by
    rw [← opened, after_output]
  have buf : sent.buf = overwrite s.buf p.line := by
    rw [← opened, after_buf]
  have rest := relayRest_block (by rw [buf, length]) input (by rw [output]; exact still) test p.line.length
  rw [buf, output] at rest
  exact rest

end Relaying

/-- The test of `process` for HEAD, with what the array holds behind the method. -/
def readsHead (scratch : Scratch) (method : List UInt8) : Bool :=
  isHead (overwrite scratch.method.bytes method) = .ok true

section Framing
variable {p : Response} {net : Net} {scratch : Scratch} {parsed : Parsed} {s : Conn} {method tail : List UInt8}
  {rest : List (Option UInt8)}

theorem isHead_readsHead : isHead (overwrite scratch.method.bytes method) = .ok (readsHead scratch method) := by
  obtain ⟨head, test⟩ := @method_test scratch method (ascii "head") (by decide +kernel)
  rw [readsHead, isHead, test]
  cases head <;> rfl

/-- What the client gets in an exchange that comes to its response half. -/
theorem client_bytes (line : takeLine maxLine (net.input .client) = (method ++ 32 :: tail, .line, rest))
    (plain : ∀ b ∈ method, b ≠ 32 ∧ b ≠ 0)
    (sent : sendRequest scratch net.connects (net.start scratch) = .ok (some parsed) s)
    (stream : net.input .server = (p.line ++ headerBlock p.fields ++ p.rest).map some)
    (clean : .failed ∉ net.writes .client) :
    match lengthRead (overwrite s.buf p.line) 0 p.fields with
    | .ok content => ((net.exchange scratch).output .client).sent =
        p.line ++ headerBlock p.fields ++ takeLimit (p.readLimit (readsHead scratch method) content) p.rest
    | .error _ => ∃ part, ((net.exchange scratch).output .client).sent = p.line ++ part ∧
        part.length < (headerBlock p.fields).length := by
  have framed : (net.start scratch).Framed .client .server s := Ends.ok (frames_sendRequest scratch net.connects) sent
  have input : s.input .server = net.input .server := framed.input .server (by decide)
  have output : s.output .client = ⟨[], net.writes .client⟩ := framed.output .client (by decide)
  obtain ⟨target, parse, rfl⟩ := sendRequest_parsed scratch.buf.size line (by simp) sent
  have whole : overwrite (net.start scratch).buf (method ++ 32 :: tail) =
      method ++ 32 :: (tail ++ (net.start scratch).buf.drop (method ++ 32 :: tail).length) := by
    simp [overwrite]
  rw [whole] at parse
  have same := parseRequest_method plain parse
  have test : isHead (target.store scratch).method = .ok (readsHead scratch method) := by
    rw [Target.store, same]
    exact isHead_readsHead
  have got := @relayResponse_client p (target.store scratch) s _ (framed.size.trans scratch.buf.size)
    (input.trans stream)
    (by rwa [output]) test
  rw [(exchange_sent sent).1]
  simpa only [output, List.nil_append] using got

end Framing

section Filled
variable {p : Response} {scratch : Scratch} {method buf : List UInt8} {b : UInt8}

/-- A request line that is as short as it can be. -/
def shortLine (method : List UInt8) : List UInt8 := method ++ 32 :: (ascii "http://" ++ [32, 10])

/-- A request whose header is one line that fills the buffer with some byte, and the answer to it. -/
def filledNet (method : List UInt8) (b : UInt8) (p : Response) : Net where
  input side := if side = .client then (shortLine method ++ List.replicate maxLine b ++ crlf).map some
    else (p.line ++ headerBlock p.fields ++ p.rest).map some
  writes _ := []
  connects := true

theorem shortLine_parse (plain : ∀ b ∈ method, b ≠ 32 ∧ b ≠ 0 ∧ b ≠ 10) :
    ∃ target, parseRequest (overwrite buf (shortLine method)) = .ok (some target) := by
  have bytes : overwrite buf (shortLine method) =
      method ++ 32 :: (ascii "http://" ++ 32 :: 10 :: buf.drop (shortLine method).length) := by
    simp [overwrite, shortLine]
  exact ⟨_, RequestCut.parse ⟨method, ascii "http://", [], 32, 10 :: buf.drop (shortLine method).length,
    ascii "http://", 10 :: buf.drop (shortLine method).length, bytes, rfl,
    fun b mem => ⟨(plain b mem).1, (plain b mem).2.1⟩, rfl,
    fun _ mem => absurd mem List.not_mem_nil, by decide +kernel, by decide +kernel⟩ rfl⟩

theorem shortLine_taken (plain : ∀ b ∈ method, b ≠ 32 ∧ b ≠ 0 ∧ b ≠ 10) (fits : method.length + 10 ≤ maxLine)
    (rest : List (Option UInt8)) :
    takeLine maxLine ((shortLine method).map some ++ rest) = (shortLine method, .line, rest) := by
  have split : shortLine method = (method ++ 32 :: (ascii "http://" ++ [32])) ++ [10] := by
    simp [shortLine]
  rw [split]
  refine takeLine_line ?_ ?_
  · intro newline
    rcases List.mem_append.mp newline with inMethod | behind
    · exact (plain 10 inMethod).2.2 rfl
    · exact absurd behind (by decide +kernel)
  · simp only [List.length_append, List.length_cons, List.length_nil, show (ascii "http://").length = 7 from rfl]
    omega

/-- A line that fills the buffer is taken without its end. -/
theorem takeLine_filled (other : b ≠ 10) (n : Nat) (rest : List (Option UInt8)) :
    takeLine n ((List.replicate n b).map some ++ rest) = (List.replicate n b, .line, rest) := by
  induction n with
  | zero => rfl
  | succ n ih =>
    rw [List.replicate_succ, List.map_cons, List.cons_append, takeLine, if_neg other, ih]

theorem overwrite_filled (size : buf.length = maxLine) :
    overwrite buf (List.replicate maxLine b) = List.replicate maxLine b := by
  rw [overwrite, List.length_replicate, List.drop_eq_nil_of_le size.le, List.append_nil]

/-- Two bytes that are the same are neither the start of Content-Length nor an empty line. -/
theorem filled_scans : headerLength (List.replicate maxLine b) = .ok none ∧
    lastLine (List.replicate maxLine b) = .ok false := by
  obtain ⟨k, size⟩ : ∃ k, maxLine = k + 2 := ⟨8190, rfl⟩
  rw [size, List.replicate_succ, List.replicate_succ]
  constructor
  · have other : strncasecmp (b :: b :: List.replicate k b) (ascii "Content-Length") = some false := by
      rw [ascii_contentLength, strncasecmp, agrees]
      split_ifs with same
      · rw [agrees, if_neg (by rw [same]; decide)]
      · rfl
    rw [headerLength, other]
    rfl
  · have other : strncmp (b :: b :: List.replicate k b) crlf = some false := by
      rw [crlf, strncmp, agrees]
      split_ifs with same
      · rw [agrees, if_neg (by rw [same]; decide)]
      · rfl
    rw [lastLine, other]
    rfl

theorem relayHeader_filled {s : Conn} {source target : Side} (size : s.buf.length = maxLine) (other : b ≠ 10)
    (stream : s.input source = (List.replicate maxLine b ++ crlf).map some)
    (clean : .failed ∉ (s.output target).writes) : ∃ sum s', relayHeader source target s = .ok (sum, 0) s' ∧
      s'.buf = overwrite (List.replicate maxLine b) crlf := by
  have fuel : (s.input source).length = 8193 + 1 := by
    rw [stream, List.length_map, List.length_append, List.length_replicate]
    rfl
  have first : takeLine maxLine (s.input source) = (List.replicate maxLine b, .line, crlf.map some) := by
    rw [stream, List.map_append]
    exact takeLine_filled other maxLine _
  have second : takeLine maxLine (crlf.map some) = (crlf, .line, []) :=
    @takeLine_line maxLine [] [13] (by decide) (by decide)
  obtain ⟨later, still, all⟩ := @sendAll_clean _ (s.output target).sent (List.replicate maxLine b) clean
  obtain ⟨later', -, all'⟩ := @sendAll_clean later ((s.output target).sent ++ List.replicate maxLine b) crlf still
  have round := @relayHeaderLoop_round s source target 0 0 8194 _ _ _ size first fun _ => by
    rw [← List.length_pos_iff, List.length_replicate]
    decide
  simp only [overwrite_filled size, filled_scans, all, if_true] at round
  have length : (List.replicate maxLine b).length = maxLine := List.length_replicate
  have round' := @relayHeaderLoop_round
    (s.after source target (crlf.map some) ⟨(s.output target).sent ++ List.replicate maxLine b, later⟩
      (List.replicate maxLine b)) source target ((none : Option Int).getD 0)
    (0 + ((List.replicate maxLine b).length : Int)) 8193 crlf .line [] length (by rw [after_input, second])
    (by decide)
  simp only [after_buf, after_output, headerLength_crlf, lastLine_crlf, all', if_true] at round'
  have start : relayHeader source target s = relayHeaderLoop source target (8194 + 1) 0 0 s :=
    congrArg (fun n => relayHeaderLoop source target (n + 1) 0 0 s) fuel
  exact ⟨_, _, start.trans (round.trans round'), rfl⟩

/-- Such a request is sent, and the buffer is left filled behind the empty line. -/
theorem filled_sent (plain : ∀ b ∈ method, b ≠ 32 ∧ b ≠ 0 ∧ b ≠ 10) (fits : method.length + 10 ≤ maxLine)
    (other : b ≠ 10) : ∃ parsed s,
      sendRequest scratch (filledNet method b p).connects ((filledNet method b p).start scratch) =
        .ok (some parsed) s ∧ s.buf = overwrite (List.replicate maxLine b) crlf := by
  have size : ((filledNet method b p).start scratch).buf.length = maxLine := scratch.buf.size
  have line : takeLine maxLine (((filledNet method b p).start scratch).input .client) =
      (shortLine method, .line, (List.replicate maxLine b ++ crlf).map some) := by
    have stream : ((filledNet method b p).start scratch).input .client =
        (shortLine method).map some ++ (List.replicate maxLine b ++ crlf).map some := by
      simp [Net.start, filledNet]
    rw [stream]
    exact shortLine_taken plain fits _
  obtain ⟨target, parse⟩ := @shortLine_parse method ((filledNet method b p).start scratch).buf plain
  obtain ⟨later, still, all⟩ := @sendAll_clean [] [] (shortLine method) List.not_mem_nil
  rw [sendRequest_line size line fun _ => by simp [shortLine]]
  have connects : (filledNet method b p).connects = true := rfl
  have output : ((filledNet method b p).start scratch).output .server = ⟨[], []⟩ := rfl
  simp only [parse, connects, output, all, if_true]
  generalize opened : Conn.dial _ _ = t
  have size' : t.buf.length = maxLine := by
    rw [← opened]
    exact overwrite_length size (takeLine_length line)
  obtain ⟨sum, s', header, filled⟩ := @relayHeader_filled b t .client .server size' other
    (by rw [← opened, dial_input, after_input]) (by rw [← opened, dial_output, after_output]; exact still)
  have rest := @sendRest_header t (target.store scratch) sum 0 s' header
  obtain ⟨post, test⟩ := @method_test scratch target.method (ascii "post") (by decide +kernel)
  have decided : isPost (target.store scratch).method = .ok post := test
  simp only [decided, ne_eq, not_true_eq_false, and_false, if_false] at rest
  exact ⟨_, s', bind_of_runs ⟨_, _, rest, rfl, rfl⟩, filled⟩

end Filled

section Heads
variable {scratch : Scratch} {method : List UInt8}

theorem readsHead_iff : readsHead scratch method = true ↔
    ascii "head" <+: (overwrite scratch.method.bytes method).map tolower := by
  have lower : (ascii "head").map tolower = ascii "head" := by decide +kernel
  rw [readsHead, decide_eq_true_iff, isHead, scanned_eq_ok_iff, strncasecmp, agrees_eq_true_iff, lower]

/-- A method that begins with HEAD in any letter case is taken for it. -/
theorem readsHead_start (starts : ascii "head" <+: method.map tolower) : readsHead scratch method = true := by
  rw [readsHead_iff, overwrite_lower]
  exact starts.trans (List.prefix_append ..)

theorem readsHead_other (starts : ¬ascii "head" <+: method.map tolower) (part : ¬method.map tolower <+: ascii "head") :
    readsHead scratch method = false := by
  rw [← Bool.not_eq_true, readsHead_iff, overwrite_lower]
  intro head
  rcases List.prefix_or_prefix_of_prefix head (List.prefix_append ..) with starts' | part'
  · exact starts starts'
  · exact part part'

/-- A start of HEAD is completed by what the array holds, or not. -/
theorem readsHead_part (starts : ¬ascii "head" <+: method.map tolower) (part : method.map tolower <+: ascii "head")
    (head : Bool) : ∃ scratch, readsHead scratch method = head := by
  have lower : (ascii "head").map tolower = ascii "head" := by decide +kernel
  have undecided : strncasecmp method (ascii "head") = none := by
    rw [strncasecmp, agrees_eq_none_iff, lower]
    exact ⟨starts, part⟩
  obtain ⟨scratch, same⟩ := test_part lower (by decide +kernel) (by decide +kernel) undecided head
  refine ⟨scratch, ?_⟩
  rw [readsHead, isHead, same]
  cases head <;> rfl

end Heads

section Exact
variable {p : Response} {method : List UInt8} {net : Net} {scratch : Scratch}

theorem Response.two_le (p : Response) : crlf.length ≤ p.line.length := by
  simp only [Response.line, List.length_append, List.length_cons]
  omega

/-- What the client gets if all lines of the header can be scanned. -/
theorem Net.Answers.received (answers : net.Answers scratch method p) (plain : ∀ b ∈ method, b ≠ 32 ∧ b ≠ 0)
    (complete : ∀ v ∈ bufferViews p.line p.fields, named v = true → numberIn v ≠ none) :
    ((net.exchange scratch).output .client).sent = p.line ++ headerBlock p.fields ++
      takeLimit (if readsHead scratch method = true ∨ p.Bare then some 0 else p.shownLimit) p.rest := by
  obtain ⟨tail, rest, line⟩ := answers.request
  obtain ⟨parsed, s, sent⟩ := answers.sent
  have got := client_bytes line plain sent answers.response answers.clean
  rw [overwrite, lengthRead_views complete] at got
  exact got

theorem answers_filled (plain : ∀ b ∈ method, b ≠ 32 ∧ b ≠ 0 ∧ b ≠ 10) (fits : method.length + 10 ≤ maxLine)
    {b : UInt8} (other : b ≠ 10) : (filledNet method b p).Answers scratch method p where
  request := by
    refine ⟨ascii "http://" ++ [32, 10], (List.replicate maxLine b ++ crlf).map some, ?_⟩
    have stream : (filledNet method b p).input .client =
        (shortLine method).map some ++ (List.replicate maxLine b ++ crlf).map some := by
      simp [filledNet]
    rw [stream]
    exact shortLine_taken plain fits _
  sent := by
    obtain ⟨parsed, s, sent, _⟩ := @filled_sent p scratch method b plain fits other
    exact ⟨parsed, s, sent⟩
  response := rfl
  clean := List.not_mem_nil

/-- If every exchange is framed, no line of the header crashes the thread. -/
theorem Response.Framed.complete (framed : p.Framed method) (plain : ∀ b ∈ method, b ≠ 32 ∧ b ≠ 0 ∧ b ≠ 10)
    (fits : method.length + 10 ≤ maxLine) :
    ∀ v ∈ bufferViews p.line p.fields, named v = true → numberIn v ≠ none := by
  refine @complete_of_lengthRead p.line 0 p.fields fun b other => ?_
  have answers := @answers_filled p method (.fill 0) plain fits b other
  obtain ⟨tail, rest, line⟩ := answers.request
  obtain ⟨parsed, s, sent, filled⟩ := @filled_sent p (.fill 0) method b plain fits other
  have got := client_bytes line (fun b mem => ⟨(plain b mem).1, (plain b mem).2.1⟩) sent answers.response answers.clean
  have bytes : overwrite s.buf p.line = p.line ++ List.replicate (maxLine - p.line.length) b := by
    have two := p.two_le
    rw [filled, overwrite, overwrite, List.drop_append, List.drop_eq_nil_of_le two, List.nil_append, List.drop_drop,
      List.drop_replicate, Nat.add_sub_cancel' two]
  rw [bytes] at got
  cases read : lengthRead (p.line ++ List.replicate (maxLine - p.line.length) b) 0 p.fields with
  | ok c => exact ⟨_, c, read⟩
  | error fault =>
    rw [read] at got
    obtain ⟨part, got, short⟩ := got
    rw [framed _ _ answers, List.append_assoc] at got
    have lengths := congrArg List.length (List.append_cancel_left got)
    rw [List.length_append] at lengths
    omega

theorem sameEnd_nil {first second : Option Nat} : SameEnd [] first second := .inr ⟨by simp, by simp⟩

theorem lastNumber_range (views : List (List UInt8)) : IntRange (lastNumber 0 views) := by
  unfold lastNumber
  cases number : (views.filter named).getLast?.bind numberIn with
  | none => exact ⟨by decide, by decide⟩
  | some n =>
    obtain ⟨v, _, number⟩ := Option.bind_eq_some_iff.mp number
    obtain ⟨i, _, number⟩ := Option.bind_eq_some_iff.mp number
    exact atoi_range (by rw [number]; rfl)

/-- A length of 0 is none for the proxy. -/
theorem shownLimit_ne_zero : p.shownLimit ≠ some 0 := by
  have range := lastNumber_range (bufferViews p.line p.fields)
  unfold IntRange at range
  unfold Response.shownLimit bodyLimit
  split_ifs with zero
  · simp
  · rw [ne_eq, Option.some.injEq]
    omega

theorem bodyLimit_toInt {n : Nat} : bodyLimit (toInt n) = if lowBits n = 0 then none else some (lowBits n) := by
  have zero : toInt n = 0 ↔ lowBits n = 0 := by
    unfold toInt lowBits
    rw [Int.bmod_def]
    split <;> omega
  have low : toInt n % 2 ^ 32 = lowBits n := by
    unfold toInt lowBits
    rw [Int.bmod_def]
    split <;> omega
  simp only [bodyLimit, zero, low, Int.toNat_natCast]

theorem declared_of_mem {h : List UInt8} {n : Nat} (mem : h ∈ p.fields) (length : declares h = some n) :
    declaredLength p.fields = some n := p.consistent h mem n length

theorem shownLimit_last {before after : List (List UInt8)} {h : List UInt8} {m : Int}
    (split : p.fields = before ++ h :: after) (begins : named h = true) (last : ∀ g ∈ after, named g = false)
    (number : numberIn (overwrite (leftBy p.line before) (h ++ crlf)) = some m) : p.shownLimit = bodyLimit m := by
  rw [Response.shownLimit, split, lastNumber_last begins last, number]
  rfl

theorem shownLimit_declared {before after : List (List UInt8)} {h : List UInt8} {n : Nat}
    (split : p.fields = before ++ h :: after) (length : declares h = some n) (last : ∀ g ∈ after, named g = false) :
    p.shownLimit = (if lowBits n = 0 then none else some (lowBits n)) ∧ declaredLength p.fields = some n := by
  refine ⟨?_, declared_of_mem (by rw [split]; simp) length⟩
  rw [shownLimit_last split (declares_named length) last (numberIn_declared length), bodyLimit_toInt]

/-- A declared length ends the body at the right place if it has 32 bits, or if the body is short. -/
theorem sameEnd_declared {n : Nat} (behind : p.rest ≠ []) :
    SameEnd p.rest (if lowBits n = 0 then none else some (lowBits n)) (some n) ↔
      0 < n ∧ n < 2 ^ 32 ∨ 2 ^ 32 ≤ n ∧ p.rest.length ≤ n ∧ (lowBits n = 0 ∨ p.rest.length ≤ lowBits n) := by
  have nonempty := List.length_pos_iff.mpr behind
  have bits : lowBits n = min n (2 ^ 63 - 1) % 2 ^ 32 := rfl
  unfold SameEnd
  by_cases low : lowBits n = 0
  · simp only [if_pos low, reduceCtorEq, false_or, Option.mem_def, forall_eq', false_implies, implies_true, true_and,
      Option.some.injEq]
    omega
  · simp only [if_neg low, Option.mem_def, forall_eq', Option.some.injEq]
    omega

/-- The two lengths end the body at the same place just in these cases. -/
theorem lengthKept_iff (complete : ∀ v ∈ bufferViews p.line p.fields, named v = true → numberIn v ≠ none)
    (behind : p.rest ≠ []) : SameEnd p.rest p.shownLimit (declaredLength p.fields) ↔ p.LengthKept := by
  constructor
  · intro both
    rcases last_named p.fields with other | ⟨before, h, after, split, begins, last⟩
    · exact .undeclared other
    · cases length : declares h with
      | none =>
        have mem : overwrite (leftBy p.line before) (h ++ crlf) ∈ bufferViews p.line p.fields := by
          rw [split, bufferViews_split]
          simp
        obtain ⟨m, number⟩ := Option.ne_none_iff_exists'.mp (complete _ mem (named_overwrite.trans begins))
        rw [shownLimit_last split begins last number] at both
        exact .other split begins last length number both
      | some n =>
        obtain ⟨shown, told⟩ := shownLimit_declared split length last
        rw [shown, told] at both
        rcases (sameEnd_declared behind).mp both with ⟨positive, small⟩ | ⟨wide, told, low⟩
        · exact .declared split length last positive small
        · exact .wide split length last wide told low
  · intro kept
    cases kept with
    | undeclared other =>
      have undeclared : p.fields.filterMap declares = [] := by
        refine List.filterMap_eq_nil_iff.mpr fun h mem => ?_
        by_contra length
        obtain ⟨n, length⟩ := Option.ne_none_iff_exists'.mp length
        have yes := declares_named length
        rw [other h mem] at yes
        cases yes
      refine .inl ?_
      rw [Response.shownLimit, lastNumber_absent other, declaredLength, undeclared]
      rfl
    | declared split length last positive small =>
      obtain ⟨shown, told⟩ := shownLimit_declared split length last
      rw [shown, told]
      exact (sameEnd_declared behind).mpr (.inl ⟨positive, small⟩)
    | wide split length last wide sent low =>
      obtain ⟨shown, told⟩ := shownLimit_declared split length last
      rw [shown, told]
      exact (sameEnd_declared behind).mpr (.inr ⟨wide, sent, low⟩)
    | other split begins last other number idle =>
      rw [shownLimit_last split begins last number]
      exact idle

/-- The bytes for the client are the response up to its end in every exchange with the method just if its header can
be scanned, and the method and the length of the body are what the proxy takes them for. -/
theorem framed_iff (plain : ∀ b ∈ method, b ≠ 32 ∧ b ≠ 0 ∧ b ≠ 10) (fits : method.length + 10 ≤ maxLine) :
    p.Framed method ↔ p.Frameable method := by
  have plain' : ∀ b ∈ method, b ≠ 32 ∧ b ≠ 0 := fun b mem => ⟨(plain b mem).1, (plain b mem).2.1⟩
  constructor
  · intro framed
    have complete := framed.complete plain fits
    refine ⟨complete, ?_⟩
    have ends : ∀ scratch, SameEnd p.rest (if readsHead scratch method = true ∨ p.Bare then some 0 else p.shownLimit)
        (p.declaredLimit method) := fun scratch => by
      have answers := @answers_filled p method scratch plain fits 0 (by decide)
      have received := answers.received plain' complete
      rw [framed _ _ answers, List.append_cancel_left_eq] at received
      exact takeLimit_eq_iff.mp received.symm
    by_cases empty : p.rest = []
    · exact .inl empty
    by_cases bare : p.Bare
    · exact .inr (.inl bare)
    by_cases head : method = ascii "HEAD"
    · exact .inr (.inr (.inl head))
    have declared : p.declaredLimit method = declaredLength p.fields := by
      rw [Response.declaredLimit, if_neg (by simp [head, bare])]
    have taken : ∀ scratch, readsHead scratch method = true → declaredLength p.fields = some 0 := fun scratch yes => by
      have same := ends scratch
      rw [if_pos (.inl yes), declared] at same
      rcases same with same | ⟨short, _⟩
      · exact same.symm
      · exact absurd (List.eq_nil_of_length_eq_zero (Nat.le_zero.mp (short 0 rfl))) empty
    have left : ∀ scratch, readsHead scratch method = false → SameEnd p.rest p.shownLimit (declaredLength p.fields) :=
      fun scratch no => by
        have same := ends scratch
        rwa [if_neg (by simp [no, bare]), declared] at same
    by_cases starts : ascii "head" <+: method.map tolower
    · exact .inr (.inr (.inr (.inl ⟨starts, taken (.fill 0) (readsHead_start starts)⟩)))
    by_cases part : method.map tolower <+: ascii "head"
    · -- both answers of the test are met
      obtain ⟨scratch, yes⟩ := readsHead_part starts part true
      obtain ⟨scratch', no⟩ := readsHead_part starts part false
      have same := left scratch' no
      rw [taken scratch yes] at same
      rcases same with same | ⟨_, short⟩
      · exact absurd same shownLimit_ne_zero
      · exact absurd (List.eq_nil_of_length_eq_zero (Nat.le_zero.mp (short 0 rfl))) empty
    · refine .inr (.inr (.inr (.inr ⟨starts, part, ?_⟩)))
      exact (lengthKept_iff complete empty).mp (left (.fill 0) (readsHead_other starts part))
  · intro frameable net scratch answers
    rw [answers.received plain' frameable.complete, List.append_cancel_left_eq, takeLimit_eq_iff]
    rcases frameable.body with empty | bare | rfl | ⟨starts, zero⟩ | ⟨starts, part, kept⟩
    · rw [empty]
      exact sameEnd_nil
    · exact .inl (by rw [if_pos (.inr bare), Response.declaredLimit, if_pos (.inr bare)])
    · have head : readsHead scratch (ascii "HEAD") = true := readsHead_start (by decide +kernel)
      exact .inl (by rw [if_pos (.inl head), Response.declaredLimit, if_pos (.inl rfl)])
    · refine .inl ?_
      rw [if_pos (.inl (readsHead_start starts)), Response.declaredLimit, zero, ite_self]
    · by_cases bare : p.Bare
      · exact .inl (by rw [if_pos (.inr bare), Response.declaredLimit, if_pos (.inr bare)])
      by_cases behind : p.rest = []
      · rw [behind]
        exact sameEnd_nil
      · have other : method ≠ ascii "HEAD" := by
          rintro rfl
          exact starts (by decide +kernel)
        rw [if_neg (by simp [readsHead_other starts part, bare]), Response.declaredLimit,
          if_neg (by simp [other, bare])]
        exact (lengthKept_iff frameable.complete behind).mpr kept

end Exact

section Sample

theorem declaredLength_single (field : List UInt8) : declaredLength [field] = declares field := by
  cases declared : declares field <;> simp [declaredLength, declared]

/-- A response with one header field that declares its length. -/
def reply (field rest : List UInt8) (header : HeaderField field) (declared : declares field ≠ none) : Response where
  version := ascii "HTTP/1.1"
  digits := ascii "200"
  tail := ascii " OK"
  fields := [field]
  rest := rest
  versionPlain := by decide +kernel
  threeDigits := ⟨rfl, by decide +kernel⟩
  final := by decide +kernel
  tailPlain := by decide +kernel
  short := by decide +kernel
  headers := List.forall_mem_singleton.mpr header
  spelled := List.forall_mem_singleton.mpr fun _ => declared
  consistent := List.forall_mem_singleton.mpr fun _ declared => (declaredLength_single field).trans declared

theorem emptyField : HeaderField (ascii "Content-Length: 0") ∧ declares (ascii "Content-Length: 0") ≠ none :=
  ⟨⟨by decide +kernel, by decide +kernel, by decide +kernel⟩, by decide +kernel⟩

theorem oneField : HeaderField (ascii "Content-Length: 1") ∧ declares (ascii "Content-Length: 1") ≠ none :=
  ⟨⟨by decide +kernel, by decide +kernel, by decide +kernel⟩, by decide +kernel⟩

/-- An empty body, and a byte behind it. -/
def emptyBody : Response := reply (ascii "Content-Length: 0") [88] emptyField.1 emptyField.2

/-- A body of one byte, and a byte behind it. -/
def oneByte : Response := reply (ascii "Content-Length: 1") [88, 89] oneField.1 oneField.2

def getRequest : Request := sample (ascii "GET") (by decide +kernel) (by decide +kernel)

/-- The request is sent and answered. -/
def Request.answered (r : Request) (p : Response) : Net where
  input side := if side = .client then (r.line ++ headerBlock r.fields).map some
    else (p.line ++ headerBlock p.fields ++ p.rest).map some
  writes _ := []
  connects := true

theorem get_sent (p : Response) : ∃ parsed s, sendRequest (.fill 0) (getRequest.answered p).connects
    ((getRequest.answered p).start (.fill 0)) = .ok (some parsed) s := by
  have differs : strncasecmp (ascii "GET") (ascii "post") = some false := by decide +kernel
  have stream : (getRequest.answered p).input .client =
    (getRequest.line ++ headerBlock getRequest.fields ++ []).map some := by
    rw [List.append_nil]
    rfl
  have run := @sendRequest_run getRequest (.fill 0) ((getRequest.answered p).start (.fill 0)) []
    (Scratch.fill 0).buf.size stream nofun false
    (isPost_overwrite differs)
  have read : ∀ buf, lengthRead buf 0 getRequest.fields = .ok ((declaredLength getRequest.fields).elim 0 Nat.cast) :=
    fun _ => lengthRead_declared sample_plain sample_consistent sample_small
  rw [read] at run
  obtain ⟨target, s, _, run, _⟩ := run
  exact ⟨_, s, run⟩

theorem get_line (p : Response) : ∃ tail rest, takeLine maxLine ((getRequest.answered p).input .client) =
    (ascii "GET" ++ 32 :: tail, .line, rest) := by
  have stream : (getRequest.answered p).input .client =
      getRequest.line.map some ++ (headerBlock getRequest.fields).map some :=
    List.map_append
  rw [stream, getRequest.takeLine]
  exact ⟨_, _, rfl⟩

theorem get_plain : ∀ b ∈ ascii "GET", b ≠ 32 ∧ b ≠ 0 := by decide +kernel

theorem get_readsHead {scratch : Scratch} : readsHead scratch (ascii "GET") = false := by
  have differs : strncasecmp (ascii "GET") (ascii "head") = some false := by decide +kernel
  rw [readsHead, isHead, overwrite, strncasecmp, agrees_append differs]
  rfl

theorem single_read {field buf : List UInt8} {n : Nat} (declared : declares field = some n) (small : n < 2 ^ 31) :
    lengthRead buf 0 [field] = .ok (n : Int) := by
  rw [lengthRead, headerLength_declared declared small]
  rfl

/-- A byte behind an empty body is relayed. -/
theorem empty_body_overrun : declaredLength emptyBody.fields = some 0 ∧
    (((getRequest.answered emptyBody).exchange (.fill 0)).output .client).sent ≠
      emptyBody.line ++ headerBlock emptyBody.fields := by
  have declared : declares (ascii "Content-Length: 0") = some 0 := by decide +kernel
  obtain ⟨parsed, s, sent⟩ := get_sent emptyBody
  obtain ⟨tail, rest, line⟩ := get_line emptyBody
  have got := @client_bytes emptyBody _ _ _ _ _ _ _ line get_plain sent rfl nofun
  have read : lengthRead (overwrite s.buf emptyBody.line) 0 emptyBody.fields = .ok (0 : Nat) :=
    single_read declared (by decide)
  rw [read, get_readsHead] at got
  have body : takeLimit (emptyBody.readLimit false (0 : Nat)) emptyBody.rest = [88] := by decide +kernel
  refine ⟨(declaredLength_single _).trans declared, fun same => ?_⟩
  rw [got, body] at same
  cases List.append_right_eq_self.mp same

theorem oneByte_frameable : oneByte.Frameable (ascii "GET") where
  complete := by decide +kernel
  body := by
    have declared : declares (ascii "Content-Length: 1") = some 1 := by decide +kernel
    refine .inr (.inr (.inr (.inr ⟨by decide +kernel, by decide +kernel, ?_⟩)))
    exact @Response.LengthKept.declared oneByte [] [] _ 1 rfl declared nofun (by decide) (by decide)

theorem get_answers (p : Response) : (getRequest.answered p).Answers (.fill 0) (ascii "GET") p where
  request := get_line p
  sent := get_sent p
  response := rfl
  clean := List.not_mem_nil

/-- Of a body with a length only the body is relayed. -/
theorem framed_single : (((getRequest.answered oneByte).exchange (.fill 0)).output .client).sent =
    oneByte.line ++ headerBlock oneByte.fields ++ [88] := by
  have framed := (@framed_iff oneByte (ascii "GET") (by decide +kernel) (by decide +kernel)).mpr oneByte_frameable
  have body : takeLimit (oneByte.declaredLimit (ascii "GET")) oneByte.rest = [88] := by decide +kernel
  have got := framed _ _ (get_answers oneByte)
  rwa [body] at got

end Sample

end Splab.Proxy
