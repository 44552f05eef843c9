import Splab.Proxy.HeaderEnds
import Splab.Proxy.Responses

namespace Splab.Proxy

/-- What the server sends behind the line that `readline` takes as the status line. -/
def behindStatus (input : List (Option UInt8)) : List (Option UInt8) := (takeLine maxLine input).2.2

/-- The stream ends before a line feed, and before `MAXLINE` bytes. -/
def NoLine (input : List (Option UInt8)) : Prop := some 10 ∉ input ∧ input.length < maxLine

section Header
variable {s s' : Conn} {source target : Side} {content sum : Int} {fuel : Nat} {r : Int × Int} {bytes : List UInt8}

/-- What `relay_header` leaves when it returns: bytes to be read, and what it has sent. -/
structure HeaderSent (source target : Side) (s : Conn) (content : Int) (part : List UInt8) (s' : Conn) : Prop where
  range : IntRange content
  size : s'.buf.length = maxLine
  unread : ∃ rest : List UInt8, s'.input source = rest.map some
  clean : .failed ∉ (s'.output target).writes
  sent : (s'.output target).sent = (s.output target).sent ++ part

theorem bytes_of_none {input : List (Option UInt8)} (read : none ∉ input) :
    ∃ bytes : List UInt8, input = bytes.map some := by
  induction input with
  | nil => exact ⟨[], rfl⟩
  | cons event rest ih =>
    obtain ⟨some', later⟩ := List.ne_and_not_mem_of_not_mem_cons read
    obtain ⟨b, rfl⟩ := Option.ne_none_iff_exists'.mp some'.symm
    obtain ⟨bytes, rfl⟩ := ih later
    exact ⟨b :: bytes, rfl⟩

theorem mem_map_some {b : UInt8} : some b ∈ bytes.map some ↔ b ∈ bytes := by simp

theorem Piece.not_noLine {c rest : List UInt8} (piece : Piece maxLine c) : ¬NoLine ((c ++ rest).map some) := by
  rintro ⟨inside, short⟩
  rw [mem_map_some] at inside
  rw [List.length_map, List.length_append] at short
  cases piece with
  | line => simp at inside
  | full _ length => omega

theorem headerLength_getD {buf : List UInt8} {n : Option Int} (range : IntRange content)
    (read : headerLength buf = .ok n) : IntRange (n.getD content) := by
  cases n with
  | none => exact range
  | some n => exact headerLength_range read

/-- A piece of the header is sent, and what the rest of the loop sends follows it. -/
theorem relayHeaderLoop_piece {c rest : List UInt8} (size : s.buf.length = maxLine) (piece : Piece maxLine c)
    (line : takeLine maxLine (s.input source) = (c, .line, rest.map some))
    (clean : .failed ∉ (s.output target).writes) (range : IntRange content)
    (run : relayHeaderLoop source target (fuel + 1) sum content s = .ok r s') :
    ∃ t sum' content', HeaderSent source target s content' c t ∧
      (r = (sum', content') ∧ s' = t ∨ relayHeaderLoop source target fuel sum' content' t = .ok r s') := by
  obtain ⟨later, still, sent⟩ := @sendAll_clean _ (s.output target).sent c clean
  rw [relayHeaderLoop_round size line fun _ => List.length_pos_iff.mp piece.positive] at run
  simp only [sent, if_true] at run
  cases read : headerLength (overwrite s.buf c) with
  | error fault =>
    simp only [read] at run
    cases run
  | ok n =>
    simp only [read] at run
    have after : HeaderSent source target s (n.getD content) c
        (s.after source target (rest.map some) ⟨(s.output target).sent ++ c, later⟩ (overwrite s.buf c)) :=
      ⟨headerLength_getD range read, overwrite_length size piece.short, ⟨rest, after_input⟩, by rwa [after_output],
        by rw [after_output]⟩
    cases last : lastLine (overwrite s.buf c) with
    | error fault =>
      simp only [last] at run
      cases run
    | ok last' =>
      simp only [last] at run
      cases last' with
      | true =>
        cases run
        exact ⟨_, _, _, after, .inl ⟨rfl, rfl⟩⟩
      | false => exact ⟨_, _, _, after, .inr run⟩

/-- The loop sends nothing only if there is no line, and then it reads to the end. -/
theorem relayHeaderLoop_sends (size : s.buf.length = maxLine) (stream : s.input source = bytes.map some)
    (clean : .failed ∉ (s.output target).writes) (range : IntRange content)
    (run : relayHeaderLoop source target fuel sum content s = .ok r s') :
    ∃ part, HeaderSent source target s r.2 part s' ∧
      (0 < fuel → (part = [] ↔ NoLine (s.input source)) ∧ (part = [] → s'.input source = [])) := by
  induction fuel generalizing s sum content bytes with
  | zero =>
    cases run
    exact ⟨[], ⟨range, size, ⟨bytes, stream⟩, clean, (List.append_nil _).symm⟩, fun none => absurd none (by decide)⟩
  | succ fuel ih =>
    rw [stream]
    obtain ⟨c, rest, piece, rfl, line⟩ | ⟨inside, short, line⟩ := takeLine_bytes maxLine bytes
    · rw [← stream] at line
      have some' : ∀ part, c ++ part ≠ [] := fun part =>
        List.append_ne_nil_of_left_ne_nil (List.length_pos_iff.mp piece.positive) part
      obtain ⟨t, sum', content', first, ⟨rfl, rfl⟩ | more⟩ := relayHeaderLoop_piece size piece line clean range run
      · have nonempty : c ≠ [] := List.length_pos_iff.mp piece.positive
        exact ⟨c, first, fun _ => ⟨iff_of_false nonempty piece.not_noLine, fun empty => absurd empty nonempty⟩⟩
      · obtain ⟨rest', unread⟩ := first.unread
        obtain ⟨part, whole, -⟩ := ih first.size unread first.clean first.range more
        refine ⟨c ++ part, { whole with sent := ?_ }, fun _ =>
          ⟨iff_of_false (some' part) piece.not_noLine, fun empty => absurd empty (some' part)⟩⟩
        rw [whole.sent, first.sent, List.append_assoc]
    · rw [← stream] at line
      have none : NoLine (bytes.map some) := ⟨mem_map_some.not.mpr inside, by rwa [List.length_map]⟩
      rw [relayHeaderLoop_round size line (by simp)] at run
      simp only at run
      cases read : headerLength (overwrite s.buf bytes) with
      | error fault =>
        simp only [read] at run
        cases run
      | ok n =>
        simp only [read] at run
        cases run
        exact ⟨[], ⟨headerLength_getD range read, overwrite_length size (takeLine_length line), ⟨[], after_input⟩,
          by rwa [after_output], by rw [after_output, List.append_nil]⟩,
          fun _ => ⟨iff_of_true rfl none, fun _ => after_input⟩⟩

end Header

section Size
variable {s s' : Conn} {parsed : Parsed} {msg sum : Int} {n : Nat} {bytes : List UInt8} {net : Net} {scratch : Scratch}

/-- A number that an `int` has counted is not larger than the true one. -/
theorem bmod_le {n : Nat} : (n : Int).bmod (2 ^ 32) ≤ n := by
  rw [Int.bmod_def]
  split <;> omega

theorem bodySum_le {len : Nat} : (if 0 < (n : Int).bmod (2 ^ 32) then
    ((len : Int) + (n : Int).bmod (2 ^ 32)).bmod (2 ^ 32) else len) ≤ (len : Int) + n := by
  split
  · next positive =>
    have counted := @bmod_le n
    obtain ⟨m, eq⟩ := Int.eq_ofNat_of_zero_le (show 0 ≤ (len : Int) + (n : Int).bmod (2 ^ 32) by omega)
    have := @bmod_le m
    rw [eq]
    omega
  · omega

/-- Behind the status line: `sum` counts the body, but not the header. -/
theorem relayRest_size {len : Nat} (size : s.buf.length = maxLine) (stream : s.input .server = bytes.map some)
    (clean : .failed ∉ (s.output .client).writes) (run : relayRest parsed msg len s = .ok sum s') :
    ∃ more : List UInt8, (s'.output .client).sent = (s.output .client).sent ++ more ∧
      (sum = len + more.length ↔ NoLine (s.input .server)) := by
  obtain ⟨header, t, first, -⟩ := bind_eq_ok.mp run
  obtain ⟨part, whole, ended⟩ := relayHeaderLoop_sends size stream clean (by unfold IntRange; omega) first
  obtain ⟨none, drained⟩ := ended (Nat.succ_pos _)
  obtain ⟨rest, unread⟩ := whole.unread
  rw [relayRest_header first] at run
  cases test : isHead parsed.method with
  | error fault =>
    simp only [test] at run
    cases run
  | ok head =>
    simp only [test] at run
    split at run
    · -- what is left behind the header is relayed as the body
      obtain ⟨input, later, buf, -, -, poured⟩ :=
        @relayContent_clean header.2 maxLine t .server .client rest (by decide)
        whole.size.ge unread whole.clean whole.range
      rw [bind_run, poured] at run
      obtain ⟨rfl, rfl⟩ := EStateM.Result.ok.inj run
      refine ⟨part ++ takeLimit (bodyLimit header.2) rest, by rw [after_output, whole.sent, List.append_assoc], ?_⟩
      have counted := @bodySum_le (takeLimit (bodyLimit header.2) rest).length len
      rw [← none, List.length_append, Nat.cast_add]
      constructor
      · intro equal
        rw [equal] at counted
        exact List.eq_nil_of_length_eq_zero (by omega)
      · rintro rfl
        have nothing : rest = [] := List.map_eq_nil_iff.mp (unread.symm.trans (drained rfl))
        have empty : takeLimit (bodyLimit header.2) [] = [] := by
          cases bodyLimit header.2 <;> simp [takeLimit]
        rw [nothing, empty]
        simp
    · cases run
      refine ⟨part, whole.sent, ?_⟩
      rw [← none, ← List.length_eq_zero_iff]
      omega

theorem relayResponse_size (size : s.buf.length = maxLine) (stream : s.input .server = bytes.map some)
    (clean : .failed ∉ (s.output .client).writes) (run : relayResponse parsed s = .ok sum s') (some' : sum ≠ 0) :
    ∃ more : List UInt8, (s'.output .client).sent = (s.output .client).sent ++ more ∧
      (sum = more.length ↔ NoLine (behindStatus (s.input .server))) := by
  obtain ⟨c, rest, piece, -, line⟩ | ⟨-, -, line⟩ := takeLine_bytes maxLine bytes
  · rw [← stream] at line
    obtain ⟨later, still, all⟩ := @sendAll_clean _ (s.output .client).sent c clean
    rw [relayResponse_line size line fun _ => List.length_pos_iff.mp piece.positive] at run
    simp only [all, if_true] at run
    cases parse : parseResponse (overwrite s.buf c) with
    | error fault =>
      simp only [parse] at run
      cases run
    | ok msg =>
      simp only [parse] at run
      obtain ⟨more, sent, counted⟩ := relayRest_size (by simpa using overwrite_length size piece.short) after_input
        (by rwa [after_output]) run
      rw [after_output] at sent
      rw [after_input] at counted
      refine ⟨c ++ more, by rw [sent, List.append_assoc], ?_⟩
      rw [behindStatus, line, ← counted, List.length_append, Nat.cast_add]
  · rw [← stream] at line
    rw [relayResponse_line size line (by simp)] at run
    cases run
    exact absurd rfl some'

/-- The log is written at the end only. -/
theorem log_stepwise {source target : Side} : Stepwise source target fun s s' => s'.log = s.log where
  refl _ := rfl
  trans first second := second.trans first
  input _ := rfl
  buf _ _ _ := rfl
  output _ _ := rfl
  dial _ _ := rfl

/-- A log entry comes from a response half that has returned a size. -/
theorem logged_run {uri : List UInt8} (logged : (net.exchange scratch).log = some (uri, sum)) :
    ∃ parsed s s', sendRequest scratch net.connects (net.start scratch) = .ok (some parsed) s ∧
      relayResponse parsed s = .ok sum s' ∧ sum ≠ 0 ∧ (net.exchange scratch).output = s'.output := by
  have sending := log_stepwise.sendRequest scratch net.connects (net.start scratch)
  unfold Net.exchange process at logged ⊢
  rw [bind_run] at logged ⊢
  cases sent : sendRequest scratch net.connects (net.start scratch) with
  | error fault s =>
    simp only [sent] at logged sending
    cases sending.symm.trans logged
  | ok result s =>
    simp only [sent] at logged sending ⊢
    cases result with
    | none => cases sending.symm.trans logged
    | some parsed =>
      have relaying := log_stepwise.relayResponse parsed s
      simp only at logged ⊢
      rw [bind_run] at logged ⊢
      cases relayed : relayResponse parsed s with
      | error fault s' =>
        simp only [relayed] at logged relaying
        cases (relaying.trans sending).symm.trans logged
      | ok total s' =>
        simp only [relayed] at logged relaying ⊢
        split at logged
        · next some' =>
          cases logged
          exact ⟨parsed, s, s', rfl, relayed, some', by rw [if_pos some']; rfl⟩
        · cases (relaying.trans sending).symm.trans logged

/-- The logged size is that of the response if and only if the response has no header at all: the lines of
`relay_header` are not counted. -/
theorem logged_size_iff {uri : List UInt8} {size : Int} (read : none ∉ net.input .server)
    (wrote : .failed ∉ net.writes .client) (logged : (net.exchange scratch).log = some (uri, size)) :
    size = ((net.exchange scratch).output .client).sent.length ↔ NoLine (behindStatus (net.input .server)) := by
  obtain ⟨parsed, s, s', sent, relayed, some', output⟩ := logged_run logged
  have framed : (net.start scratch).Framed .client .server s := Ends.ok (frames_sendRequest scratch net.connects) sent
  have input : s.input .server = net.input .server := framed.input .server (by decide)
  have start : s.output .client = ⟨[], net.writes .client⟩ := framed.output .client (by decide)
  obtain ⟨bytes, stream⟩ := bytes_of_none read
  obtain ⟨more, whole, counted⟩ := relayResponse_size (framed.size.trans scratch.buf.size) (input.trans stream)
    (by rwa [start]) relayed some'
  rw [output, whole, start, List.nil_append, counted, input]

theorem version_plain : ∀ b ∈ ascii "HTTP/1.1", b ≠ 32 ∧ b ≠ 0 ∧ b ≠ 10 := by
  decide +kernel

/-- A response without fields and without a body. -/
def noContent : Response where
  version := ascii "HTTP/1.1"
  digits := ascii "204"
  tail := ascii " No Content"
  fields := []
  rest := []
  versionPlain := version_plain
  threeDigits := ⟨rfl, by decide +kernel⟩
  final := by decide +kernel
  tailPlain := by decide +kernel
  short := by decide +kernel
  headers := List.forall_mem_nil _
  spelled := List.forall_mem_nil _
  consistent := List.forall_mem_nil _

/-- Behind a request of any kind the status line counts, and the empty line does not. -/
theorem noContent_relayed {s : Conn} {target : Target} (size : s.buf.length = maxLine)
    (input : s.input .server = (noContent.line ++ headerBlock []).map some)
    (clean : .failed ∉ (s.output .client).writes) :
    ∃ s', relayResponse (target.store (.fill 0)) s = .ok (noContent.line.length : Int) s' := by
  have status : takeLine maxLine (s.input .server) = (noContent.line, .line, (headerBlock []).map some) := by
    rw [input, List.map_append]
    exact noContent.takeLine _
  obtain ⟨writes, still, all⟩ := @sendAll_clean _ (s.output .client).sent noContent.line clean
  rw [relayResponse_line size status fun _ => by simp [Response.line]]
  simp only [noContent.parse, all, if_true]
  obtain ⟨sum, buf, later, -, -, run⟩ := @relayHeader_block (s.after .server .client ((headerBlock []).map some)
    ⟨(s.output .client).sent ++ noContent.line, writes⟩ (overwrite s.buf noContent.line)) .server .client [] []
    (overwrite_length size (takeLine_length (noContent.takeLine []))) (List.forall_mem_nil _) (by simp)
    (by rwa [after_output])
  have code : (noContent.code : Int) = 204 := by decide +kernel
  have head : isHead (target.store (.fill 0)).method = .ok (readsHead (.fill 0) target.method) := isHead_readsHead
  rw [relayRest_header run, head]
  simp only [code]
  rw [if_neg (by simp)]
  exact ⟨_, rfl⟩

theorem noContent_logged : ∃ uri, ((getRequest.answered noContent).exchange (.fill 0)).log =
    some (uri, (noContent.line.length : Int)) := by
  obtain ⟨parsed, s, sent⟩ := get_sent noContent
  obtain ⟨tail, rest, line⟩ := get_line noContent
  have framed : ((getRequest.answered noContent).start (.fill 0)).Framed .client .server s :=
    Ends.ok (frames_sendRequest _ _) sent
  have size : s.buf.length = maxLine := framed.size.trans (Scratch.fill 0).buf.size
  have input : s.input .server = (noContent.line ++ headerBlock []).map some := framed.input .server (by decide)
  have start : s.output .client = ⟨[], []⟩ := framed.output .client (by decide)
  obtain ⟨target, -, rfl⟩ := sendRequest_parsed (Scratch.fill 0).buf.size line (by simp) sent
  obtain ⟨s', run⟩ := @noContent_relayed s target size input (by rw [start]; exact List.not_mem_nil)
  have some' : (noContent.line.length : Int) ≠ 0 := by decide +kernel
  refine ⟨cstring (target.store (.fill 0)).uri, ?_⟩
  unfold Net.exchange process
  rw [bind_run, sent]
  simp only
  rw [bind_run, run]
  simp only
  rw [if_pos some']
  rfl

theorem noContent_read : none ∉ (getRequest.answered noContent).input .server := by
  simp [Request.answered]

theorem logged_size_noContent : (noContent.line.length : Int) =
    (((getRequest.answered noContent).exchange (.fill 0)).output .client).sent.length ↔
      NoLine (behindStatus ((getRequest.answered noContent).input .server)) := by
  obtain ⟨uri, logged⟩ := noContent_logged
  exact logged_size_iff noContent_read nofun logged

/-- The empty line behind the status line is not counted. -/
theorem logged_size_short : ¬∀ (net : Net) (scratch : Scratch) (uri : List UInt8) (size : Int),
    (∀ side, none ∉ net.input side) → (∀ side, .failed ∉ net.writes side) →
      (net.exchange scratch).log = some (uri, size) →
        size = ((net.exchange scratch).output .client).sent.length := by
  intro always
  obtain ⟨uri, logged⟩ := noContent_logged
  have equal := always _ _ uri _ (fun side => by cases side <;> simp [Request.answered])
    (fun _ => List.not_mem_nil) logged
  obtain ⟨parsed, s, s', sent, relayed, some', output⟩ := logged_run logged
  have framed := Ends.ok (frames_sendRequest _ _) sent
  have input : s.input .server = (noContent.line ++ headerBlock []).map some := framed.input .server (by decide)
  have start : s.output .client = ⟨[], []⟩ := framed.output .client (by decide)
  obtain ⟨more, whole, counted⟩ := relayResponse_size (framed.size.trans (Scratch.fill 0).buf.size) input
    (by rw [start]; exact List.not_mem_nil) relayed some'
  rw [output, whole, start, List.nil_append] at equal
  have none := counted.mp equal
  rw [input, List.map_append, behindStatus, noContent.takeLine] at none
  exact none.1 (by decide)

end Size

end Splab.Proxy
