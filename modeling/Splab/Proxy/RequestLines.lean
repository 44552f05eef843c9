import Splab.Proxy.Process
import Splab.Proxy.Searches

namespace Splab.Proxy
open CString

/-- The parts of a request line with an absolute URI. -/
structure RequestLine where
  method : List UInt8
  scheme : List UInt8
  host : List UInt8
  port : Option (List UInt8)
  path : List UInt8
  version : List UInt8
  deriving DecidableEq, Repr

namespace RequestLine

def portPart (r : RequestLine) : List UInt8 := r.port.elim [] (58 :: ·)

def uri (r : RequestLine) : List UInt8 := r.scheme ++ (r.host ++ (r.portPart ++ r.path))

def bytes (r : RequestLine) : List UInt8 := r.method ++ 32 :: (r.uri ++ 32 :: (r.version ++ crlf))

/-- The port in the line, or the default. -/
def portNumber (r : RequestLine) : Nat := r.port.elim 80 digitsValue

def target (r : RequestLine) : Target := ⟨r.method, r.uri, r.host, r.portNumber⟩

/-- The syntax of the line. -/
structure Valid (r : RequestLine) : Prop where
  method : r.method ≠ [] ∧ 32 ∉ r.method
  http : r.scheme.map tolower = ascii "http://"
  host : r.host ≠ [] ∧ ∀ b ∈ r.host, b ∉ ascii " :/\r\n"
  port : ∀ digits ∈ r.port, digits ≠ [] ∧ (∀ b ∈ digits, isdigit b = true) ∧ 1 ≤ digitsValue digits ∧
    digitsValue digits ≤ 65535
  path : (r.path = [] ∨ r.path.head? = some 47) ∧ 32 ∉ r.path
  zero : 0 ∉ r.bytes
  short : r.bytes.length ≤ maxLine - 1

end RequestLine

/-- The array holds the text as a string with its terminating zero byte. -/
structure Stores (buf text : List UInt8) : Prop where
  string : cstring buf = text
  ended : text ++ [0] <+: buf
  size : buf.length = maxLine

section Store
variable {buf text : List UInt8}

theorem stores_overwrite (size : buf.length = maxLine) (plain : 0 ∉ text) (short : text.length < maxLine) :
    Stores (overwrite buf (text ++ [0])) text where
  string := by
    have nonzero : ∀ b ∈ text, decide (b ≠ 0) = true := fun b mem => decide_eq_true fun zero => plain (zero ▸ mem)
    rw [cstring, overwrite, List.append_assoc, List.takeWhile_append_of_pos nonzero]
    simp
  ended := List.prefix_append ..
  size := overwrite_length size (by simpa using short)

end Store

namespace RequestLine
variable {r : RequestLine} {behind : List UInt8}

theorem digit_ne_blank {digits : List UInt8} (all : ∀ b ∈ digits, isdigit b = true) : 32 ∉ digits := fun mem =>
  absurd (all 32 mem) (by decide)

theorem Valid.blank_uri (valid : r.Valid) : 32 ∉ r.uri := by
  intro mem
  unfold uri at mem
  simp only [List.mem_append] at mem
  rcases mem with inScheme | inHost | inPort | inPath
  · exact blank_scheme valid.http inScheme
  · exact valid.host.2 32 inHost (by decide)
  · cases port : r.port with
    | none =>
      rw [portPart, port] at inPort
      cases inPort
    | some digits =>
      rw [portPart, port] at inPort
      rcases List.mem_cons.mp inPort with colon | inDigits
      · cases colon
      · exact digit_ne_blank (valid.port digits port).2.1 inDigits
  · exact valid.path.2 inPath

theorem Valid.zero_method (valid : r.Valid) : 0 ∉ r.method := fun mem =>
  valid.zero (List.mem_append_left _ mem)

theorem Valid.zero_uri (valid : r.Valid) : 0 ∉ r.uri := fun mem =>
  valid.zero (List.mem_append_right _ (List.mem_cons_of_mem _ (List.mem_append_left _ mem)))

theorem Valid.zero_host (valid : r.Valid) : 0 ∉ r.host := fun mem =>
  valid.zero_uri (List.mem_append_right _ (List.mem_append_left _ mem))

theorem Valid.uri_length (valid : r.Valid) : r.method.length < maxLine ∧ r.uri.length < maxLine ∧
    r.host.length < maxLine := by
  have short := valid.short
  unfold bytes at short
  have inside : r.host.length ≤ r.uri.length := by
    simp only [uri, List.length_append]
    omega
  simp only [List.length_append, List.length_cons] at short
  unfold maxLine at *
  omega

/-- Behind the host there is a delimiter, and the port where the delimiter is a colon. -/
theorem Valid.host_ends (valid : r.Valid) : ∃ c rest, r.portPart ++ (r.path ++ 32 :: behind) = c :: rest ∧
    c ∈ ascii " :/\r\n" ∧ parsePort (c :: rest) = .ok r.portNumber := by
  have next : ∃ c rest, r.path ++ 32 :: behind = c :: rest ∧ c ∈ ascii " :/\r\n" ∧ c ≠ 58 ∧ isdigit c = false := by
    cases path : r.path with
    | nil => exact ⟨32, behind, rfl, by decide, by decide, by decide⟩
    | cons c rest =>
      obtain ⟨empty | slash, -⟩ := valid.path
      · rw [path] at empty
        cases empty
      · rw [path] at slash
        cases slash
        exact ⟨47, _, rfl, by decide, by decide, by decide⟩
  obtain ⟨c, rest, eq, delimiter, other, digit⟩ := next
  cases port : r.port with
  | none =>
    refine ⟨c, rest, ?_, delimiter, ?_⟩
    · rw [portPart, port, eq]
      rfl
    · rw [parsePort, if_neg other, portNumber, port]
      rfl
  | some digits =>
    obtain ⟨nonempty, all, -, small⟩ := valid.port digits port
    have number : atoi (digits ++ c :: rest) = some (toInt (digitsValue digits)) :=
      @atoi_digits rest [] digits c (by simp) nonempty all digit
    refine ⟨58, digits ++ c :: rest, ?_, by decide, ?_⟩
    · rw [portPart, port, eq]
      rfl
    · rw [parsePort, if_pos rfl, number, toInt_small (by omega), portNumber, port]
      rfl

theorem Valid.parse (valid : r.Valid) : parseRequest (r.bytes ++ behind) = .ok (some r.target) := by
  obtain ⟨c, rest, hostend, delimiter, port⟩ := @Valid.host_ends r (r.version ++ crlf ++ behind) valid
  have second : r.scheme ++ (r.host ++ c :: rest) = r.uri ++ 32 :: (r.version ++ crlf ++ behind) := by
    rw [uri, ← hostend]
    simp only [List.append_assoc]
  have first : r.bytes ++ behind = r.method ++ 32 :: (r.scheme ++ (r.host ++ c :: rest)) := by
    rw [second, bytes]
    simp only [List.append_assoc, List.cons_append]
  have nonzero : ∀ {text : List UInt8}, 0 ∉ text → ∀ b ∈ text, b ≠ 0 := fun none b mem zero => none (zero ▸ mem)
  have other : ∀ {text : List UInt8}, 32 ∉ text → ∀ b ∈ text, b ≠ 32 := fun none b mem blank => none (blank ▸ mem)
  let cut : RequestCut (r.bytes ++ behind) :=
    { method := r.method
      scheme := r.scheme
      host := r.host
      delimiter := c
      tail := rest
      uri := r.uri
      version := r.version ++ crlf ++ behind
      first := first
      second := second
      methodPlain := fun b mem => ⟨other valid.method.2 b mem, nonzero valid.zero_method b mem⟩
      http := valid.http
      hostPlain := fun b mem => ⟨valid.host.2 b mem, nonzero valid.zero_host b mem⟩
      ends := delimiter
      uriPlain := fun b mem => ⟨other valid.blank_uri b mem, nonzero valid.zero_uri b mem⟩ }
  exact cut.parse port

end RequestLine

section Inverse
variable {r : RequestLine}

/-- `parse_request` takes every line of the syntax apart into the parts that it was made of,
whatever stands behind it in the buffer and in the arrays that it fills. -/
theorem parseRequest_inverts (valid : r.Valid) (behind : List UInt8) (scratch : Scratch) :
    parseRequest (r.bytes ++ behind) = .ok (some r.target) ∧
      Stores (r.target.store scratch).hostname r.host ∧ (r.target.store scratch).port = r.portNumber ∧
        Stores (r.target.store scratch).uri r.uri ∧
          (r.target.store scratch).method.take r.method.length = r.method := by
  obtain ⟨-, uri, host⟩ := valid.uri_length
  exact ⟨valid.parse, stores_overwrite scratch.hostname.size valid.zero_host host, rfl,
    stores_overwrite scratch.uri.size valid.zero_uri uri, take_overwrite⟩

/-- `GET HTTP://localhost:8080/a:b HTTP/1.0` -/
def colonLine : RequestLine where
  method := ascii "GET"
  scheme := ascii "HTTP://"
  host := ascii "localhost"
  port := some (ascii "8080")
  path := ascii "/a:b"
  version := ascii "HTTP/1.0"

theorem parseRequest_inverts_colonLine :
    parseRequest (colonLine.bytes ++ []) = .ok (some colonLine.target) ∧
      Stores (colonLine.target.store (.fill 0)).hostname colonLine.host ∧
        (colonLine.target.store (.fill 0)).port = colonLine.portNumber ∧
          Stores (colonLine.target.store (.fill 0)).uri colonLine.uri ∧
            (colonLine.target.store (.fill 0)).method.take colonLine.method.length = colonLine.method :=
  @parseRequest_inverts colonLine
    { method := by decide +kernel
      http := by decide +kernel
      host := by decide +kernel
      port := by decide +kernel
      path := by decide +kernel
      zero := by decide +kernel
      short := by decide +kernel } [] (.fill 0)

end Inverse

end Splab.Proxy
