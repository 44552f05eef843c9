import Splab.Proxy.Relay

namespace Splab.Proxy
open CString

/-- A header field without its CRLF. -/
structure HeaderField (h : List UInt8) : Prop where
  nonempty : h ≠ []
  line : 10 ∉ h
  short : h.length + 2 < maxLine

/-- A header with the empty line at its end. -/
def headerBlock (fields : List (List UInt8)) : List UInt8 := (fields.map (· ++ crlf)).flatten ++ crlf

/-- The length that `relay_header` takes from the fields, if it gets through them; its buffer is `buf` at first. -/
def lengthRead : List UInt8 → Int → List (List UInt8) → Except Fault Int
  | _, content, [] => .ok content
  | buf, content, h :: fields =>
    headerLength (overwrite buf (h ++ crlf)) >>= fun n => lengthRead (overwrite buf (h ++ crlf)) (n.getD content) fields

/-- The number of bytes after which `relay_content` stops, if it does so before the end of the file. -/
def bodyLimit (content : Int) : Option Nat := if content = 0 then none else some (content % 2 ^ 32).toNat

def takeLimit : Option Nat → List UInt8 → List UInt8
  | none, bytes => bytes
  | some n, bytes => bytes.take n

/-- What is left of the limit after `i` bytes. -/
def limitLeft (content i : Int) : Option Nat := if content = 0 then none else some ((content - i) % 2 ^ 32).toNat

/-- A peer that sends the given bytes, and one that takes everything. -/
def bytesConn (bytes buf : List UInt8) : Conn where
  input _ := bytes.map some
  output _ := ⟨[], []⟩
  buf := buf
  dialled := none
  log := none

@[simp]
theorem bytesConn_buf {bytes buf : List UInt8} : (bytesConn bytes buf).buf = buf := rfl

/-- The values of an `int`. -/
def IntRange (x : Int) : Prop := -2 ^ 31 ≤ x ∧ x < 2 ^ 31

section Body
variable {content i : Int} {len : Nat} {out : Output} {waiting bytes : List UInt8}

theorem intRange_bmod {x : Int} : IntRange (x.bmod (2 ^ 32)) := by
  unfold IntRange
  rw [Int.bmod_def]
  split <;> omega

theorem atoi_range {buf : List UInt8} {x : Int} (read : scanned (atoi buf) = .ok x) : IntRange x := by
  unfold atoi at read
  simp only at read
  split at read
  · cases read
  · cases read
    exact intRange_bmod

/-- If the buffer is written without a failure, only the place of the bytes changes. -/
theorem pour_round (content : Int) (len : Nat) (waiting : List UInt8) (i : Int) (clean : .failed ∉ out.writes) :
    ∃ out' waiting', .failed ∉ out'.writes ∧ out'.sent ++ waiting' = out.sent ++ waiting ∧
      ∀ input, pour content len input out waiting i =
        if content ≠ 0 ∧ i = content then (i, input, (sendAll out.writes out.sent waiting).2)
        else match input with
          | [] => (i, [], (sendAll out'.writes out'.sent waiting').2)
          | none :: rest => (-1, rest, out')
          | some b :: rest => pour content len rest out' (waiting' ++ [b]) ((i + 1).bmod (2 ^ 32)) := by
  obtain ⟨later, still, all⟩ := @sendAll_clean out.writes out.sent waiting clean
  by_cases full : waiting.length = len
  · refine ⟨⟨out.sent ++ waiting, later⟩, [], still, List.append_nil _, fun input => ?_⟩
    rw [pour]
    rcases input with _ | ⟨_ | b, rest⟩ <;> simp [full, all]
  · refine ⟨out, waiting, clean, rfl, fun input => ?_⟩
    rw [pour]
    rcases input with _ | ⟨_ | b, rest⟩ <;> simp [full]

theorem limitLeft_eq_zero (wide : IntRange content) (range : IntRange i) (nonzero : content ≠ 0) :
    limitLeft content i = some 0 ↔ i = content := by
  unfold IntRange at wide range
  rw [limitLeft, if_neg nonzero, Option.some.injEq]
  omega

theorem limitLeft_going (wide : IntRange content) (range : IntRange i) (going : ¬(content ≠ 0 ∧ i = content)) :
    limitLeft content i ≠ some 0 := by
  intro zero
  by_cases nonzero : content = 0
  · simp [limitLeft, nonzero] at zero
  · exact going ⟨nonzero, (limitLeft_eq_zero wide range nonzero).mp zero⟩

theorem limitLeft_succ (wide : IntRange content) (range : IntRange i) (going : ¬(content ≠ 0 ∧ i = content)) :
    limitLeft content ((i + 1).bmod (2 ^ 32)) = (limitLeft content i).map (· - 1) := by
  unfold IntRange at wide range
  by_cases zero : content = 0
  · simp only [limitLeft, if_pos zero, Option.map_none]
  · have other : i ≠ content := fun same => going ⟨zero, same⟩
    simp only [limitLeft, if_neg zero, Option.map_some, Option.some.injEq]
    rw [Int.bmod_def]
    split <;> omega

theorem takeLimit_cons (wide : IntRange content) (range : IntRange i) (going : ¬(content ≠ 0 ∧ i = content)) (b : UInt8)
    (bytes : List UInt8) : takeLimit (limitLeft content i) (b :: bytes) =
      b :: takeLimit (limitLeft content ((i + 1).bmod (2 ^ 32))) bytes := by
  have more := limitLeft_going wide range going
  rw [limitLeft_succ wide range going]
  cases left : limitLeft content i with
  | none => rfl
  | some n =>
    have positive : n ≠ 0 := fun zero => more (by rw [left, zero])
    obtain ⟨n, rfl⟩ := Nat.exists_eq_succ_of_ne_zero positive
    rfl

/-- A count to which nothing is added. -/
theorem bmod_range (range : IntRange i) : (i + (0 : Nat)).bmod (2 ^ 32) = i := by
  unfold IntRange at range
  rw [Int.bmod_eq_of_le] <;> omega

/-- Without failures `relay_content` sends the bytes up to its limit, and counts them in an `int`. -/
theorem pour_clean (len : Nat) (waiting bytes : List UInt8) (i : Int) (clean : .failed ∉ out.writes)
    (wide : IntRange content) (range : IntRange i) :
    ∃ input later, .failed ∉ later ∧ pour content len (bytes.map some) out waiting i =
      ((i + (takeLimit (limitLeft content i) bytes).length).bmod (2 ^ 32), input,
        ⟨out.sent ++ waiting ++ takeLimit (limitLeft content i) bytes, later⟩) := by
  induction bytes generalizing out waiting i with
  | nil =>
    obtain ⟨out', waiting', clean', same, round⟩ := pour_round content len waiting i clean
    have empty : takeLimit (limitLeft content i) [] = [] := by
      cases limitLeft content i <;> simp [takeLimit]
    rw [empty, List.length_nil, bmod_range range, round]
    split
    · obtain ⟨later, still, all⟩ := @sendAll_clean out.writes out.sent waiting clean
      exact ⟨[], later, still, by rw [all, List.append_nil]; rfl⟩
    · obtain ⟨later, still, all⟩ := @sendAll_clean out'.writes out'.sent waiting' clean'
      exact ⟨[], later, still, by simp only [List.map_nil, all, same, List.append_nil]⟩
  | cons b bytes ih =>
    obtain ⟨out', waiting', clean', same, round⟩ := pour_round content len waiting i clean
    rw [round]
    by_cases stop : content ≠ 0 ∧ i = content
    · obtain ⟨later, still, all⟩ := @sendAll_clean out.writes out.sent waiting clean
      have none : takeLimit (limitLeft content i) (b :: bytes) = [] := by
        rw [(limitLeft_eq_zero wide range stop.1).mpr stop.2, takeLimit, List.take_zero]
      rw [if_pos stop, all, none, List.length_nil, bmod_range range]
      exact ⟨(b :: bytes).map some, later, still, by simp⟩
    · have next : IntRange ((i + 1).bmod (2 ^ 32)) := intRange_bmod
      obtain ⟨input, later, still, poured⟩ := ih (waiting' ++ [b]) ((i + 1).bmod (2 ^ 32)) clean' next
      rw [if_neg stop, takeLimit_cons wide range stop]
      refine ⟨input, later, still, poured.trans ?_⟩
      have count : ((i + 1).bmod (2 ^ 32) + (takeLimit (limitLeft content ((i + 1).bmod (2 ^ 32))) bytes).length).bmod
          (2 ^ 32) = (i + (b :: takeLimit (limitLeft content ((i + 1).bmod (2 ^ 32))) bytes).length).bmod (2 ^ 32) := by
        rw [Int.bmod_add_bmod, List.length_cons, Nat.cast_succ, add_assoc, add_comm 1]
      rw [count]
      simp [← same]

theorem relayContent_clean {s : Conn} {source target : Side} (bytes : List UInt8) (low : 1 ≤ len)
    (room : len ≤ s.buf.length) (stream : s.input source = bytes.map some)
    (clean : .failed ∉ (s.output target).writes) (wide : IntRange content) :
    ∃ input later buf, .failed ∉ later ∧ buf.length = s.buf.length ∧ relayContent source target content len s =
      .ok (((takeLimit (bodyLimit content) bytes).length : Int).bmod (2 ^ 32))
        (s.after source target input ⟨(s.output target).sent ++ takeLimit (bodyLimit content) bytes, later⟩ buf) := by
  obtain ⟨input, later, still, poured⟩ := pour_clean len [] bytes 0 clean wide (by unfold IntRange; omega)
  rw [← stream] at poured
  obtain ⟨buf, length, run⟩ := relayContent_run low room poured
  refine ⟨input, later, buf, still, length, ?_⟩
  rw [run, List.append_nil, limitLeft, sub_zero, zero_add]
  rfl

/-- Two limits cut off the same bytes. -/
theorem takeLimit_eq_iff {first second : Option Nat} : takeLimit first bytes = takeLimit second bytes ↔
    first = second ∨ (∀ n ∈ first, bytes.length ≤ n) ∧ (∀ n ∈ second, bytes.length ≤ n) := by
  cases first with
  | none =>
    cases second with
    | none => simp
    | some n => simp [takeLimit]
  | some n =>
    cases second with
    | none => simp [takeLimit, List.take_eq_self_iff]
    | some m =>
      simp only [takeLimit, Option.some.injEq, Option.mem_def, forall_eq']
      constructor
      · intro same
        have lengths := congrArg List.length same
        rw [List.length_take, List.length_take] at lengths
        omega
      · rintro (rfl | ⟨short, short'⟩)
        · rfl
        · rw [List.take_of_length_le short, List.take_of_length_le short']

end Body

section Block
variable {s : Conn} {source target : Side} {content sum : Int} {fuel : Nat} {fields : List (List UInt8)}
  {rest : List (Option UInt8)}

theorem headerLength_crlf (buf : List UInt8) : headerLength (overwrite buf crlf) = .ok none := rfl

theorem lastLine_crlf (buf : List UInt8) : lastLine (overwrite buf crlf) = .ok true := by
  simp [lastLine, overwrite, crlf, strncmp, agrees, scanned]

theorem HeaderField.notLast {h : List UInt8} (field : HeaderField h) (buf : List UInt8) :
    lastLine (overwrite buf (h ++ crlf)) = .ok false := by
  have differs : strncmp (overwrite buf (h ++ crlf)) crlf = some false := by
    unfold overwrite strncmp crlf
    rcases h with _ | ⟨b, _ | ⟨c, h⟩⟩
    · exact absurd rfl field.nonempty
    · simp only [List.cons_append, List.nil_append, agrees]
      split <;> rfl
    · have other : ¬id c = id 10 := fun newline => field.line (by simp [show c = 10 from newline])
      simp only [List.cons_append, agrees, if_neg other]
      split <;> rfl
  rw [lastLine, differs]
  rfl

theorem HeaderField.takeLine {h : List UInt8} (field : HeaderField h) :
    takeLine maxLine ((h ++ crlf).map some ++ rest) = (h ++ crlf, .line, rest) := by
  have short := field.short
  have line := @takeLine_line maxLine rest (h ++ [13]) (by simpa using field.line) (by simp; omega)
  simpa [crlf] using line

theorem length_le_headerBlock (fields : List (List UInt8)) : fields.length ≤ (headerBlock fields).length := by
  induction fields with
  | nil => exact Nat.zero_le _
  | cons h fields ih =>
    simp only [headerBlock, List.map_cons, List.flatten_cons, List.length_append, List.length_cons, crlf] at ih ⊢
    omega

/-- `relay_header` sends the whole header, or crashes before its end. -/
theorem relayHeaderLoop_block (size : s.buf.length = maxLine) (all : ∀ h ∈ fields, HeaderField h)
    (stream : s.input source = (headerBlock fields).map some ++ rest) (clean : .failed ∉ (s.output target).writes)
    (enough : fields.length < fuel) :
    match lengthRead s.buf content fields with
    | .ok c => ∃ sum' buf later, buf.length = maxLine ∧ .failed ∉ later ∧
        relayHeaderLoop source target fuel sum content s =
          .ok (sum', c) (s.after source target rest ⟨(s.output target).sent ++ headerBlock fields, later⟩ buf)
    | .error fault => ∃ s' part, relayHeaderLoop source target fuel sum content s = .error fault s' ∧
        (s'.output target).sent = (s.output target).sent ++ part ∧ part.length < (headerBlock fields).length := by
  induction fields generalizing s content sum fuel with
  | nil =>
    obtain ⟨fuel, rfl⟩ : ∃ n, fuel = n + 1 := ⟨fuel - 1, by simp only [List.length_nil] at enough; omega⟩
    have line : takeLine maxLine (s.input source) = (crlf, .line, rest) := by
      rw [stream]
      exact @takeLine_line maxLine rest [13] (by decide) (by decide)
    obtain ⟨later, still, sent⟩ := @sendAll_clean _ (s.output target).sent crlf clean
    rw [relayHeaderLoop_round size line (by decide)]
    simp only [headerLength_crlf, lastLine_crlf, sent, lengthRead, if_true]
    exact ⟨_, _, later, overwrite_length size (by decide), still, rfl⟩
  | cons h fields ih =>
    obtain ⟨fuel, rfl⟩ : ∃ n, fuel = n + 1 := ⟨fuel - 1, by simp only [List.length_cons] at enough; omega⟩
    obtain ⟨field, all⟩ := List.forall_mem_cons.mp all
    have block : headerBlock (h :: fields) = (h ++ crlf) ++ headerBlock fields := by
      simp [headerBlock]
    have line : takeLine maxLine (s.input source) = (h ++ crlf, .line, (headerBlock fields).map some ++ rest) := by
      rw [stream, block, List.map_append, List.append_assoc]
      exact field.takeLine
    have size' : (overwrite s.buf (h ++ crlf)).length = maxLine := by
      have short := field.short
      exact overwrite_length size (by simp [crlf]; omega)
    obtain ⟨later, still, sent⟩ := @sendAll_clean _ (s.output target).sent (h ++ crlf) clean
    rw [relayHeaderLoop_round size line (by simp [crlf])]
    simp only [lengthRead, field.notLast]
    cases read : headerLength (overwrite s.buf (h ++ crlf)) with
    | error fault =>
      refine ⟨_, [], rfl, ?_, ?_⟩
      · simp
      · simp [block, crlf]
    | ok n =>
      simp only [sent, if_true]
      have next := @ih (s.after source target ((headerBlock fields).map some ++ rest)
        ⟨(s.output target).sent ++ (h ++ crlf), later⟩ (overwrite s.buf (h ++ crlf))) (n.getD content)
        (sum + (h ++ crlf).length) fuel size' all after_input (by simpa using still) (by simpa using enough)
      simp only [after_buf, after_output, after_after] at next
      change match lengthRead (overwrite s.buf (h ++ crlf)) (n.getD content) fields with
        | .ok c => _
        | .error fault => _
      cases later' : lengthRead (overwrite s.buf (h ++ crlf)) (n.getD content) fields with
      | ok c =>
        rw [later'] at next
        obtain ⟨sum', buf, writes, size, still, run⟩ := next
        exact ⟨sum', buf, writes, size, still, run.trans (by rw [block, List.append_assoc])⟩
      | error fault =>
        rw [later'] at next
        obtain ⟨s', part, run, sent, short⟩ := next
        refine ⟨s', (h ++ crlf) ++ part, run, sent.trans (List.append_assoc ..), ?_⟩
        simp only [block, List.length_append] at short ⊢
        omega

theorem relayHeader_block (size : s.buf.length = maxLine) (all : ∀ h ∈ fields, HeaderField h)
    (stream : s.input source = (headerBlock fields).map some ++ rest) (clean : .failed ∉ (s.output target).writes) :
    match lengthRead s.buf 0 fields with
    | .ok c => ∃ sum buf later, buf.length = maxLine ∧ .failed ∉ later ∧
        relayHeader source target s =
          .ok (sum, c) (s.after source target rest ⟨(s.output target).sent ++ headerBlock fields, later⟩ buf)
    | .error fault => ∃ s' part, relayHeader source target s = .error fault s' ∧
        (s'.output target).sent = (s.output target).sent ++ part ∧ part.length < (headerBlock fields).length := by
  refine relayHeaderLoop_block size all stream clean ?_
  have := length_le_headerBlock fields
  rw [stream, List.length_append, List.length_map]
  omega

theorem headerLength_range {buf : List UInt8} {n : Int} (read : headerLength buf = .ok (some n)) : IntRange n := by
  obtain ⟨named, _, read⟩ := bind_ok read
  cases named with
  | false => cases read
  | true =>
    obtain ⟨blank, _, read⟩ := bind_ok read
    obtain ⟨value, number, read⟩ := bind_ok read
    cases read
    exact atoi_range number

theorem lengthRead_range {buf : List UInt8} {c : Int} (range : IntRange content)
    (read : lengthRead buf content fields = .ok c) : IntRange c := by
  induction fields generalizing buf content with
  | nil =>
    cases read
    exact range
  | cons h fields ih =>
    rw [lengthRead] at read
    cases here : headerLength (overwrite buf (h ++ crlf)) with
    | error fault =>
      rw [here] at read
      cases read
    | ok n =>
      rw [here, ok_bind] at read
      refine ih ?_ read
      cases n with
      | none => exact range
      | some n => exact headerLength_range here

end Block

end Splab.Proxy
