import Splab.Proxy.Streams

namespace Splab.Proxy
open CString

/-- The bytes up to the first empty line, which is a CRLF at the start or behind a line feed, or all bytes if there
is none. -/
def headerPart : Bool → List UInt8 → List UInt8
  | _, [] => []
  | start, b :: rest =>
    if start = true ∧ b = 13 ∧ rest.head? = some 10 then crlf else b :: headerPart (b = 10) rest

/-- The bytes cut behind every line feed, and where `MAXLINE` bytes have none; `first` are those of the piece at
hand. -/
def pieces : List UInt8 → List UInt8 → List (List UInt8)
  | first, [] => if first = [] then [] else [first]
  | first, b :: rest =>
    if b = 10 ∨ first.length + 1 = maxLine then (first ++ [b]) :: pieces [] rest else pieces (first ++ [b]) rest

/-- The buffer of `relay_header` at each of its searches for the length. -/
def buffers : List UInt8 → List (List UInt8) → List (List UInt8)
  | buf, [] => [buf]
  | buf, c :: cs => overwrite buf c :: buffers (overwrite buf c) cs

/-- If the buffer begins with Content-Length, there is a blank before its first zero byte, and what follows is a number
with an end in the buffer. -/
def Readable (buf : List UInt8) : Prop :=
  strncasecmp buf (ascii "Content-Length") = some true →
    ∃ i n, strchr buf 32 = some (some i) ∧ atoi (buf.drop (i + 1)) = some n

/-- No piece before the last one looks like an empty line, the last one is not cut off by the end of the file, and every
search for the length succeeds. -/
structure Separable (buf : List UInt8) (cs : List (List UInt8)) : Prop where
  inner : ∀ c ∈ cs.dropLast, c ≠ crlf
  ended : ∀ c ∈ cs.getLast?, c.getLast? = some 10 ∨ c.length = maxLine
  readable : ∀ v ∈ buffers buf cs, Readable v

/-- The run succeeds, leaves `rest` to be read from `source`, and has sent `part` to `target`. -/
def Relays (run : Thread (Int × Int)) (source target : Side) (part rest : List UInt8) (s : Conn) : Prop :=
  ∃ r s', run s = .ok r s' ∧ s'.input source = rest.map some ∧
    (s'.output target).sent = (s.output target).sent ++ part

/-- What a call of `readline` takes when it does not meet the end of the file. -/
inductive Piece (n : Nat) : List UInt8 → Prop
  | line {body : List UInt8} (inside : 10 ∉ body) (short : body.length < n) : Piece n (body ++ [10])
  | full {body : List UInt8} (inside : 10 ∉ body) (length : body.length = n) : Piece n body

section Pieces
variable {n : Nat} {c body bytes rest : List UInt8} {start : Bool}

theorem Piece.cons {b : UInt8} (other : b ≠ 10) (piece : Piece n c) : Piece (n + 1) (b :: c) := by
  cases piece with
  | line inside short => exact @Piece.line _ (b :: _) (List.not_mem_cons_of_ne_of_not_mem other.symm inside) (by simpa)
  | full inside length => exact .full (List.not_mem_cons_of_ne_of_not_mem other.symm inside) (by simpa)

/-- `readline` takes a piece, or meets the end of the file inside a line. -/
theorem takeLine_bytes (n : Nat) (bytes : List UInt8) :
    (∃ c rest, Piece n c ∧ bytes = c ++ rest ∧ takeLine n (bytes.map some) = (c, .line, rest.map some)) ∨
      (10 ∉ bytes ∧ bytes.length < n ∧ takeLine n (bytes.map some) = (bytes, .eof, [])) := by
  induction n generalizing bytes with
  | zero => exact .inl ⟨[], bytes, .full List.not_mem_nil rfl, rfl, rfl⟩
  | succ n ih =>
    cases bytes with
    | nil => exact .inr ⟨List.not_mem_nil, Nat.succ_pos n, rfl⟩
    | cons b bytes =>
      simp only [List.map_cons, takeLine]
      by_cases newline : b = 10
      · subst newline
        exact .inl ⟨[10], bytes, .line List.not_mem_nil (Nat.succ_pos n), rfl, by rw [if_pos rfl]⟩
      · rw [if_neg newline]
        obtain ⟨c, rest, piece, rfl, line⟩ | ⟨inside, short, line⟩ := ih bytes
        · exact .inl ⟨b :: c, rest, piece.cons newline, rfl, by rw [line]⟩
        · exact .inr ⟨List.not_mem_cons_of_ne_of_not_mem (Ne.symm newline) inside, by simpa using short, by rw [line]⟩

theorem pieces_flatten (first bytes : List UInt8) : (pieces first bytes).flatten = first ++ bytes := by
  fun_induction pieces first bytes with
  | case1 => rfl
  | case2 first nonempty => simp
  | case3 first b rest cut ih => simp [ih]
  | case4 first b rest more ih => simp [ih]

theorem pieces_eq_nil : pieces [] bytes = [] ↔ bytes = [] := by
  constructor
  · intro none
    have all := pieces_flatten [] bytes
    rw [none] at all
    exact all.symm
  · rintro rfl
    rfl

theorem pieces_open {first : List UInt8} (inside : 10 ∉ body) (short : first.length + body.length < maxLine) :
    pieces first (body ++ rest) = pieces (first ++ body) rest := by
  induction body generalizing first with
  | nil => rw [List.append_nil, List.nil_append]
  | cons b body ih =>
    obtain ⟨other, inside⟩ := List.ne_and_not_mem_of_not_mem_cons inside
    simp only [List.length_cons] at short
    rw [List.cons_append, pieces, if_neg (by rintro (same | long); exacts [other same.symm, by omega])]
    rw [ih inside (by simp only [List.length_append, List.length_singleton]; omega)]
    simp

theorem Piece.pieces_append (piece : Piece maxLine c) : pieces [] (c ++ rest) = c :: pieces [] rest := by
  cases piece with
  | line inside short =>
    rw [List.append_assoc, pieces_open inside (by simpa using short), List.nil_append, List.singleton_append, pieces,
      if_pos (.inl rfl)]
  | full inside length =>
    rcases List.eq_nil_or_concat' c with rfl | ⟨body, b, rfl⟩
    · cases length
    · have inside' : 10 ∉ body := fun mem => inside (List.mem_append_left _ mem)
      rw [List.length_append, List.length_singleton] at length
      rw [List.append_assoc, pieces_open inside' (by simp only [List.length_nil]; omega), List.nil_append,
        List.singleton_append, pieces, if_pos (.inr length)]

theorem pieces_short (inside : 10 ∉ bytes) (short : bytes.length < maxLine) (nonempty : bytes ≠ []) :
    pieces [] bytes = [bytes] := by
  have all := @pieces_open bytes [] [] inside (by simpa using short)
  rwa [List.append_nil, List.nil_append, pieces, if_neg nonempty] at all

theorem headerPart_open (inside : 10 ∉ body) :
    headerPart false (body ++ rest) = body ++ headerPart false rest := by
  induction body with
  | nil => rfl
  | cons b body ih =>
    obtain ⟨other, inside⟩ := List.ne_and_not_mem_of_not_mem_cons inside
    rw [List.cons_append, headerPart, if_neg (by simp), decide_eq_false other.symm, ih inside, List.cons_append]

theorem headerPart_newline : headerPart start (10 :: rest) = 10 :: headerPart true rest := by
  rw [headerPart, if_neg (by simp)]
  rfl

/-- The empty line ends the header, and every other piece is a part of it. -/
theorem Piece.headerPart_append (piece : Piece maxLine c) : headerPart start (c ++ rest) =
    if start = true ∧ c = crlf then crlf else c ++ headerPart (c.getLast? = some 10) rest := by
  cases piece with
  | @line body inside short =>
    have newline : decide ((body ++ [10]).getLast? = some 10) = true := by simp
    rw [newline, List.append_assoc, List.singleton_append]
    cases body with
    | nil => rw [List.nil_append, headerPart_newline, if_neg (by simp [crlf])]; rfl
    | cons b body =>
      obtain ⟨other, inside⟩ := List.ne_and_not_mem_of_not_mem_cons inside
      rw [List.cons_append, headerPart, decide_eq_false other.symm, headerPart_open inside, headerPart_newline]
      cases body with
      | nil => simp [crlf]
      | cons b' body => simp [crlf, (List.ne_of_not_mem_cons inside).symm]
  | full inside length =>
    have unended : decide (c.getLast? = some 10) = false :=
      decide_eq_false fun last => inside (List.mem_of_getLast? last)
    rw [unended]
    rcases c with _ | ⟨b, _ | ⟨b', body⟩⟩
    · cases length
    · cases length
    · obtain ⟨other, inside⟩ := List.ne_and_not_mem_of_not_mem_cons inside
      have head : b' ≠ 10 := (List.ne_of_not_mem_cons inside).symm
      rw [List.cons_append, headerPart, decide_eq_false other.symm, headerPart_open inside]
      simp [crlf, head]

/-- Behind a piece that is not a CRLF the header goes on. -/
theorem Piece.headerPart_split (piece : Piece maxLine c) (start : Bool) (rest : List UInt8) :
    ∃ part, headerPart start (c ++ rest) = c ++ part ∧
      (c ≠ crlf → part = headerPart (c.getLast? = some 10) rest) := by
  rw [piece.headerPart_append]
  split_ifs with empty
  · exact ⟨[], by rw [empty.2, List.append_nil], fun other => absurd empty.2 other⟩
  · exact ⟨_, rfl, fun _ => rfl⟩

theorem headerPart_short (inside : 10 ∉ bytes) : headerPart start bytes = bytes := by
  cases bytes with
  | nil => rfl
  | cons b bytes =>
    obtain ⟨other, inside⟩ := List.ne_and_not_mem_of_not_mem_cons inside
    have tail := @headerPart_open bytes [] inside
    rw [headerPart, if_neg, decide_eq_false other.symm]
    · simpa [headerPart] using tail
    · intro empty
      exact inside (List.mem_of_head? empty.2.2)

theorem Piece.ended (piece : Piece n c) : c.getLast? = some 10 ∨ c.length = n := by
  cases piece with
  | line => exact .inl (by simp)
  | full _ length => exact .inr length

theorem Piece.short (piece : Piece n c) : c.length ≤ n := by
  cases piece with
  | line _ short => simpa using short
  | full _ length => exact length.le

theorem Piece.positive (piece : Piece maxLine c) : 0 < c.length := by
  cases piece with
  | line => simp
  | full _ length => rw [length]; decide

/-- The first two bytes of a piece tell whether it is a CRLF. -/
theorem Piece.lastLine {buf : List UInt8} (piece : Piece maxLine c) :
    lastLine (overwrite buf c) = .ok (decide (c = crlf)) := by
  have same : strncmp (overwrite buf c) crlf = some (decide (c = crlf)) := by
    unfold overwrite strncmp
    cases piece with
    | @line body inside short =>
      rcases body with _ | ⟨b, _ | ⟨b', body⟩⟩
      · simp [crlf, agrees]
      · by_cases carriage : b = 13 <;> simp [crlf, agrees, carriage]
      · have other : b' ≠ 10 := by
          rintro rfl
          simp at inside
        simp [crlf, agrees, other]
    | full inside length =>
      rcases c with _ | ⟨b, _ | ⟨b', body⟩⟩
      · cases length
      · cases length
      · have other : b' ≠ 10 := by
          rintro rfl
          simp at inside
        simp [crlf, agrees, other]
  rw [Proxy.lastLine, same]
  rfl

end Pieces

section Rounds
variable {s : Conn} {source target : Side} {buf c part rest bytes : List UInt8} {cs : List (List UInt8)}
  {sum content : Int} {fuel : Nat}

theorem headerLength_readable (size : buf.length = maxLine) : (∃ n, headerLength buf = .ok n) ↔ Readable buf := by
  have decided : strncasecmp buf (ascii "Content-Length") ≠ none := agrees_long (by rw [size]; decide +kernel)
  obtain ⟨named, eq⟩ := Option.ne_none_iff_exists'.mp decided
  unfold Readable headerLength
  rw [eq]
  cases named with
  | false => exact iff_of_true ⟨none, rfl⟩ fun same => absurd same (by decide)
  | true =>
    constructor
    · intro run _
      obtain ⟨n, run⟩ := run
      rw [scanned, ok_bind, if_pos rfl] at run
      obtain ⟨i, blank, run⟩ := bind_ok run
      obtain ⟨value, number, run⟩ := bind_ok run
      exact ⟨i, value, found_eq_ok blank, scanned_eq_ok number⟩
    · intro readable
      obtain ⟨i, n, blank, number⟩ := readable rfl
      refine ⟨some n, ?_⟩
      rw [scanned, ok_bind, if_pos rfl, blank, found, ok_bind, number]
      rfl

/-- The condition looks at one piece after the other. -/
theorem separable_cons (ended : c.getLast? = some 10 ∨ c.length = maxLine) : Separable buf (c :: cs) ↔
    (c = crlf → cs = []) ∧ Readable (overwrite buf c) ∧ Separable (overwrite buf c) cs := by
  have front : (∀ d ∈ (c :: cs).dropLast, d ≠ crlf) ↔ (c = crlf → cs = []) ∧ ∀ d ∈ cs.dropLast, d ≠ crlf := by
    cases cs with
    | nil => simp
    | cons d cs => simp
  have back : (∀ d ∈ (c :: cs).getLast?, d.getLast? = some 10 ∨ d.length = maxLine) ↔
      ∀ d ∈ cs.getLast?, d.getLast? = some 10 ∨ d.length = maxLine := by
    cases cs with
    | nil => simpa using ended
    | cons d cs => simp [List.getLast?_cons]
  constructor
  · rintro ⟨inner, last, readable⟩
    obtain ⟨here, later⟩ := List.forall_mem_cons.mp readable
    exact ⟨(front.mp inner).1, here, (front.mp inner).2, back.mp last, later⟩
  · rintro ⟨only, here, inner, last, later⟩
    exact ⟨front.mpr ⟨only, inner⟩, back.mpr last, List.forall_mem_cons.mpr ⟨here, later⟩⟩

theorem separable_nil : Separable buf [] ↔ Readable buf := by
  constructor
  · intro all
    exact List.forall_mem_singleton.mp all.readable
  · intro readable
    exact ⟨List.forall_mem_nil _, by simp, List.forall_mem_singleton.mpr readable⟩

theorem relays_ok {run : Thread (Int × Int)} {r : Int × Int} {s' : Conn} (ended : run s = .ok r s') :
    Relays run source target part rest s ↔
      s'.input source = rest.map some ∧ (s'.output target).sent = (s.output target).sent ++ part := by
  constructor
  · intro relays
    obtain ⟨r', s'', ended', conditions⟩ := relays
    cases ended.symm.trans ended'
    exact conditions
  · intro conditions
    exact ⟨r, s', ended, conditions⟩

theorem not_relays_error {run : Thread (Int × Int)} {fault : Fault} {s' : Conn} (crashed : run s = .error fault s') :
    ¬Relays run source target part rest s := by
  intro relays
  obtain ⟨r', s'', ended, _⟩ := relays
  cases crashed.symm.trans ended

/-- At the end of the file nothing is written. -/
theorem relays_eof (size : s.buf.length = maxLine) (line : takeLine maxLine (s.input source) = (c, .eof, [])) :
    Relays (relayHeaderLoop source target (fuel + 1) sum content) source target part [] s ↔
      Readable (overwrite s.buf c) ∧ part = [] := by
  have readable := headerLength_readable (overwrite_length size (takeLine_length line))
  have round := @relayHeaderLoop_round s source target content sum fuel c .eof [] size line (by simp)
  cases here : headerLength (overwrite s.buf c) with
  | error fault =>
    rw [here] at readable
    simp only [here] at round
    exact iff_of_false (not_relays_error round) fun both => by simpa using readable.mpr both.1
  | ok n =>
    rw [here] at readable
    simp only [here] at round
    rw [relays_ok round, ← readable]
    simp [Conn.after]

/-- A piece is written, and ends the header if it is a CRLF. -/
theorem relays_piece (size : s.buf.length = maxLine) (piece : Piece maxLine c)
    (line : takeLine maxLine (s.input source) = (c, .line, rest.map some))
    (clean : .failed ∉ (s.output target).writes) :
    ∃ later content', .failed ∉ later ∧ ∀ left,
      (Relays (relayHeaderLoop source target (fuel + 1) sum content) source target (c ++ part) left s ↔
        Readable (overwrite s.buf c) ∧
          if c = crlf then left = rest ∧ part = []
          else Relays (relayHeaderLoop source target fuel (sum + c.length) content') source target part left
            (s.after source target (rest.map some) ⟨(s.output target).sent ++ c, later⟩ (overwrite s.buf c))) := by
  have readable := headerLength_readable (overwrite_length size piece.short)
  obtain ⟨later, still, sent⟩ := @sendAll_clean _ (s.output target).sent c clean
  have round := @relayHeaderLoop_round s source target content sum fuel c .line (rest.map some) size line
    fun _ => List.length_pos_iff.mp piece.positive
  cases here : headerLength (overwrite s.buf c) with
  | error fault =>
    rw [here] at readable
    simp only [here] at round
    exact ⟨later, content, still, fun left => iff_of_false (not_relays_error round) fun both => by
      simpa using readable.mpr both.1⟩
  | ok n =>
    rw [here] at readable
    simp only [here, sent, piece.lastLine, if_true] at round
    refine ⟨later, n.getD content, still, fun left => ?_⟩
    rw [← readable, and_iff_right ⟨n, rfl⟩]
    by_cases last : c = crlf
    · simp only [last, decide_true] at round ⊢
      have unread : rest.map some = left.map some ↔ left = rest := by
        rw [List.map_inj_right fun _ _ => Option.some.inj, eq_comm]
      rw [relays_ok round, after_input, after_output, unread]
      simp
    · simp only [last, decide_false] at round
      rw [if_neg last]
      unfold Relays
      rw [round]
      simp [List.append_assoc]

/-- What was read of a line before the end of the file is lost, so there must be nothing. -/
theorem relays_rest (size : s.buf.length = maxLine) (stream : s.input source = bytes.map some) (inside : 10 ∉ bytes)
    (short : bytes.length < maxLine) (line : takeLine maxLine (bytes.map some) = (bytes, .eof, [])) :
    Relays (relayHeaderLoop source target (fuel + 1) sum content) source target bytes [] s ↔
      Separable s.buf (pieces [] bytes) := by
  rw [← stream] at line
  rw [relays_eof size line]
  by_cases empty : bytes = []
  · rw [empty, and_iff_left rfl]
    exact separable_nil.symm
  · rw [pieces_short inside short empty]
    refine iff_of_false (fun both => empty both.2) fun all => ?_
    rcases all.ended bytes rfl with newline | long
    · exact inside (List.mem_of_getLast? newline)
    · omega

/-- The loop, with the flag that tells whether a line begins. -/
theorem relayHeaderLoop_relays (start : Bool) (size : s.buf.length = maxLine) (stream : s.input source = bytes.map some)
    (clean : .failed ∉ (s.output target).writes) (enough : bytes.length < fuel) :
    Relays (relayHeaderLoop source target fuel sum content) source target (headerPart start bytes)
        (bytes.drop (headerPart start bytes).length) s ↔
      Separable s.buf (pieces [] (headerPart start bytes)) := by
  induction fuel generalizing s bytes start sum content with
  | zero => omega
  | succ fuel ih =>
    rcases takeLine_bytes maxLine bytes with ⟨c, rest, piece, rfl, line⟩ | ⟨inside, short, line⟩
    · obtain ⟨part, same, follows⟩ := piece.headerPart_split start rest
      have left : (c ++ rest).drop (c ++ part).length = rest.drop part.length := by
        rw [List.length_append, List.drop_append, List.drop_eq_nil_of_le (by omega), Nat.add_sub_cancel_left,
          List.nil_append]
      rw [← stream] at line
      obtain ⟨later, content', still, relays⟩ :=
        @relays_piece s source target c part rest sum content fuel size piece line clean
      rw [same, piece.pieces_append, separable_cons piece.ended, left, relays]
      by_cases last : c = crlf
      · -- a CRLF ends the run, also where it is only the rest of a long line
        rw [if_pos last, pieces_eq_nil]
        constructor
        · intro both
          obtain ⟨readable, _, rfl⟩ := both
          exact ⟨fun _ => rfl, readable, separable_nil.mpr readable⟩
        · intro all
          obtain ⟨only, readable, _⟩ := all
          obtain rfl := only last
          exact ⟨readable, rfl, rfl⟩
      · obtain rfl := follows last
        have nonempty := piece.positive
        rw [List.length_append] at enough
        have next := @ih
          (s.after source target (rest.map some) ⟨(s.output target).sent ++ c, later⟩ (overwrite s.buf c)) rest
          (sum + c.length) content' (c.getLast? = some 10) (overwrite_length size piece.short)
          after_input (by simpa using still) (by omega)
        rw [if_neg last, next, after_buf]
        simp [last]
    · rw [headerPart_short inside, List.drop_length]
      exact relays_rest size stream inside short line

/-- Without failures `relay_header` reads and writes the header up to its empty line or the end of the file if
`MAXLINE` cuts no CRLF off a line before it, the file does not end inside a line, and the searches for the length
succeed. -/
theorem relayHeader_relays_iff (size : s.buf.length = maxLine) (stream : s.input source = bytes.map some)
    (clean : .failed ∉ (s.output target).writes) :
    Relays (relayHeader source target) source target (headerPart true bytes)
        (bytes.drop (headerPart true bytes).length) s ↔
      Separable s.buf (pieces [] (headerPart true bytes)) :=
  relayHeaderLoop_relays true size stream clean (by rw [stream, List.length_map]; exact Nat.lt_succ_self _)

/-- A search that ends in the bytes of a piece. -/
theorem readable_overwrite {n : Option Int} (size : buf.length = maxLine) (short : c.length ≤ maxLine)
    (read : headerLength c = .ok n) : Readable (overwrite buf c) :=
  (headerLength_readable (overwrite_length size short)).mp
    ⟨n, (local_headerLength c _ (.of_ok read)).trans read⟩

/-- A header with two fields and the two bytes of the body that it declares. -/
def twoFields : List UInt8 := ascii "Host: a\r\nContent-Length: 2\r\n\r\nhi"

theorem pieces_twoFields : pieces [] (headerPart true twoFields) =
    [ascii "Host: a\r\n", ascii "Content-Length: 2\r\n", crlf] := by decide +kernel

theorem separable_twoFields (size : buf.length = maxLine) :
    Separable buf (pieces [] (headerPart true twoFields)) := by
  have afterHost : (overwrite buf (ascii "Host: a\r\n")).length = maxLine := overwrite_length size (by decide +kernel)
  have afterLength : (overwrite (overwrite buf (ascii "Host: a\r\n")) (ascii "Content-Length: 2\r\n")).length =
      maxLine := overwrite_length afterHost (by decide +kernel)
  have host := @readable_overwrite buf (ascii "Host: a\r\n") none size (by decide +kernel) (by decide +kernel)
  have length := @readable_overwrite _ (ascii "Content-Length: 2\r\n") (some 2) afterHost (by decide +kernel)
    (by decide +kernel)
  have empty := @readable_overwrite _ crlf none afterLength (by decide +kernel) rfl
  rw [pieces_twoFields]
  refine (separable_cons (.inl (by decide +kernel))).mpr ⟨by decide +kernel, host, ?_⟩
  refine (separable_cons (.inl (by decide +kernel))).mpr ⟨by decide +kernel, length, ?_⟩
  exact (separable_cons (.inl rfl)).mpr ⟨fun _ => rfl, empty, separable_nil.mpr empty⟩

theorem relayHeader_twoFields : Relays (relayHeader .server .client) .server .client (headerPart true twoFields)
    (twoFields.drop (headerPart true twoFields).length) (bytesConn twoFields (List.replicate maxLine 0)) :=
  (relayHeader_relays_iff List.length_replicate rfl List.not_mem_nil).mpr (separable_twoFields List.length_replicate)

/-- The byte that was read before the end of the file is not written. -/
theorem relayHeader_loses : ¬∀ (s : Conn) (source target : Side) (bytes : List UInt8), s.buf.length = maxLine →
    s.input source = bytes.map some → .failed ∉ (s.output target).writes →
    Relays (relayHeader source target) source target (headerPart true bytes)
      (bytes.drop (headerPart true bytes).length) s := by
  intro relays
  have run := relays (bytesConn [97] (List.replicate maxLine 0)) .server .client [97] List.length_replicate rfl
    List.not_mem_nil
  have all := (relayHeaderLoop_relays true List.length_replicate rfl List.not_mem_nil (by decide)).mp run
  rcases all.ended [97] rfl with newline | long
  · cases newline
  · cases long

end Rounds

end Splab.Proxy
