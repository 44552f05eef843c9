import Splab.Proxy.RequestLines

namespace Splab.Proxy
open CString

/-- The text for `%d`. -/
def decimal : Int → List UInt8
  | .ofNat n => ascii n.repr
  | .negSucc n => 45 :: ascii (n + 1).repr

/-- The bytes of a 32-bit number in the other order, on a little-endian machine. -/
def ntohl (v : UInt32) : UInt32 :=
  (v &&& 0xff) <<< 24 ||| ((v >>> 8) &&& 0xff) <<< 16 ||| ((v >>> 16) &&& 0xff) <<< 8 ||| v >>> 24

/-- The numbers `a`, `b`, `c` and `d` of `format_log_entry`, from `sin_addr.s_addr`. -/
def octets (sAddr : UInt32) : UInt8 × UInt8 × UInt8 × UInt8 :=
  let host := ntohl sAddr
  ((host >>> 24).toUInt8, ((host >>> 16) &&& 0xff).toUInt8, ((host >>> 8) &&& 0xff).toUInt8, (host &&& 0xff).toUInt8)

/-- What `format_log_entry` writes before the terminating zero byte, for the text that `strftime` gives. -/
def formatLogEntry (timeStr : List UInt8) (sAddr : UInt32) (uri : List UInt8) (size : Int) : List UInt8 :=
  let (a, b, c, d) := octets sAddr
  timeStr ++ ascii ": " ++ decimal a.toNat ++ ascii "." ++ decimal b.toNat ++ ascii "." ++ decimal c.toNat ++
    ascii "." ++ decimal d.toNat ++ ascii " " ++ uri ++ ascii " " ++ decimal size

/-- The number of digits. -/
def width (n : Nat) : Nat := Nat.log 10 n + 1

/-- The widths of the four numbers of an address. -/
def addressWidth (sAddr : UInt32) : Nat :=
  let (a, b, c, d) := octets sAddr
  width a.toNat + width b.toNat + width c.toNat + width d.toNat

/-- The text between the first two blanks. -/
def betweenBlanks (request : List UInt8) : List UInt8 := (request.dropWhile (· ≠ 32)).tail.takeWhile (· ≠ 32)

section Lengths
variable {request timeStr : List UInt8} {target : Target} {size : Nat}

theorem length_ascii {text : String} : (ascii text).length = text.toList.length := List.length_map ..

theorem length_decimal (n : Nat) : (decimal n).length = width n := by
  change (ascii n.repr).length = width n
  rw [length_ascii, Nat.toList_repr, width]
  refine le_antisymm ?_ (Nat.succ_le_of_lt (Nat.lt_of_not_le fun few => ?_))
  · exact (Nat.length_toDigits_le_iff (by decide) (Nat.succ_pos _)).mpr (Nat.lt_pow_succ_log_self (by decide) n)
  · rcases Nat.eq_zero_or_pos (Nat.log 10 n) with zero | positive
    · have := Nat.length_toDigits_pos (b := 10) (n := n)
      omega
    · have small := (Nat.length_toDigits_le_iff (by decide) positive).mp few
      have large := Nat.pow_log_le_self 10 (x := n) (by rintro rfl; simp at positive)
      omega

theorem length_formatLogEntry {sAddr : UInt32} {uri : List UInt8} :
    (formatLogEntry timeStr sAddr uri size).length =
      timeStr.length + addressWidth sAddr + uri.length + width size + 7 := by
  have colon : (ascii ": ").length = 2 := rfl
  have dot : (ascii ".").length = 1 := rfl
  have blank : (ascii " ").length = 1 := rfl
  simp only [formatLogEntry, addressWidth, List.length_append, length_decimal, colon, dot, blank]
  omega

theorem betweenBlanks_eq (accepted : parseRequest request = .ok (some target)) :
    betweenBlanks request = target.uri := by
  obtain ⟨cut, -, -, same, -⟩ := parseRequest_some_iff.mp accepted
  rw [← same]
  obtain ⟨method, scheme, host, delimiter, tail, uri, version, rfl, second, plain, http, hostPlain, ends, uriPlain⟩ :=
    cut
  have other : ∀ {text : List UInt8}, (∀ b ∈ text, b ≠ 32 ∧ b ≠ 0) → ∀ b ∈ text, decide (b ≠ 32) = true :=
    fun plain b mem => decide_eq_true (plain b mem).1
  change betweenBlanks _ = uri
  rw [second, betweenBlanks, List.dropWhile_append_of_pos (other plain), List.dropWhile_cons_of_neg (by simp),
    List.tail_cons, List.takeWhile_append_of_pos (other uriPlain), List.takeWhile_cons_of_neg (by simp),
    List.append_nil]

/-- The string in the array `uri` is the text between the blanks. -/
theorem cstring_uri (accepted : parseRequest request = .ok (some target)) (scratch : Scratch) :
    cstring (target.store scratch).uri = betweenBlanks request := by
  obtain ⟨cut, -, -, uri, -⟩ := parseRequest_some_iff.mp accepted
  have nonzero : ∀ b ∈ target.uri, decide (b ≠ 0) = true := fun b mem => decide_eq_true (cut.uriPlain b (uri ▸ mem)).2
  rw [betweenBlanks_eq accepted, cstring, Target.store, overwrite, List.append_assoc,
    List.takeWhile_append_of_pos nonzero]
  simp

/-- A log entry fits into `buf` if and only if the URI leaves room for the other parts. -/
theorem formatLogEntry_fits_iff (accepted : parseRequest request = .ok (some target)) (timeStr : List UInt8)
    (sAddr : UInt32) (size : Nat) (scratch : Scratch) :
    (formatLogEntry timeStr sAddr (cstring (target.store scratch).uri) size).length + 1 ≤ maxLine ↔
      timeStr.length + addressWidth sAddr + (betweenBlanks request).length + width size + 8 ≤ maxLine := by
  rw [length_formatLogEntry, cstring_uri accepted]

/-- `G http://h/aaa H` -/
def pathLine (n : Nat) : RequestLine where
  method := [71]
  scheme := ascii "http://"
  host := [104]
  port := none
  path := 47 :: List.replicate n 97
  version := [72]

theorem pathLine_length {n : Nat} : (pathLine n).bytes.length = n + 15 := by
  simp [RequestLine.bytes, RequestLine.uri, RequestLine.portPart, pathLine, ascii_http, crlf]

theorem pathLine_valid {n : Nat} (short : n ≤ 8176) : (pathLine n).Valid where
  method := ⟨List.cons_ne_nil _ _, by simp [pathLine]⟩
  http := lower_http
  host := ⟨List.cons_ne_nil _ _, fun b mem => by
    rw [List.mem_singleton.mp mem]
    decide⟩
  port := nofun
  path := ⟨.inr rfl, by simp [pathLine]⟩
  zero := by simp [RequestLine.bytes, RequestLine.uri, RequestLine.portPart, pathLine, ascii_http, crlf]
  short := by
    rw [pathLine_length]
    unfold maxLine
    omega

theorem pathLine_parse {n : Nat} (short : n ≤ 8176) :
    parseRequest (pathLine n).bytes = .ok (some (pathLine n).target) := by
  simpa using @RequestLine.Valid.parse _ [] (pathLine_valid short)

theorem pathLine_betweenBlanks {n : Nat} (short : n ≤ 8176) :
    (betweenBlanks (pathLine n).bytes).length = n + 9 := by
  rw [betweenBlanks_eq (pathLine_parse short)]
  simp [RequestLine.target, RequestLine.uri, RequestLine.portPart, pathLine, ascii_http]

/-- The time in the form that `strftime` is asked for. -/
def epoch : List UInt8 := ascii "Thu 01 Jan 1970 00:00:00 UTC"

/-- The address 127.0.0.1 in the order of the network. -/
def localhost : UInt32 := 0x0100007f

theorem formatLogEntry_fits_short :
    (formatLogEntry epoch localhost (cstring ((pathLine 0).target.store (.fill 0)).uri) 1).length + 1 ≤ maxLine ↔
      epoch.length + addressWidth localhost + (betweenBlanks (pathLine 0).bytes).length + width 1 + 8 ≤ maxLine :=
  formatLogEntry_fits_iff (pathLine_parse (by decide)) epoch localhost 1 (.fill 0)

/-- With a long URI the entry is too long. -/
theorem formatLogEntry_overruns : ¬∀ request target timeStr sAddr size scratch, request.length ≤ maxLine →
    parseRequest request = .ok (some target) → 25 ≤ timeStr.length → timeStr.length ≤ 40 → size < 2 ^ 31 →
      (formatLogEntry timeStr sAddr (cstring (target.store scratch).uri) (size : Nat)).length + 1 ≤ maxLine := by
  intro always
  have short : (pathLine 8176).bytes.length ≤ maxLine := by rw [pathLine_length]; decide
  have fits := always _ _ epoch localhost 1 (.fill 0) short (pathLine_parse le_rfl) (by decide)
    (by decide) (by decide)
  rw [length_formatLogEntry, cstring_uri (pathLine_parse le_rfl), pathLine_betweenBlanks le_rfl] at fits
  unfold maxLine at fits
  omega

end Lengths

end Splab.Proxy
