import Splab.Proxy.Searches

namespace Splab.Proxy
open CString

/-- What `readline` can deliver as a line. -/
def Delivered (line : List UInt8) : Prop := ∃ input rest, takeLine maxLine input = (line, .line, rest)

/-- A method, a blank, the scheme, a host name, and a second blank further on. -/
def HasParts (line : List UInt8) : Prop :=
  ∃ method scheme host tail version, line = method ++ 32 :: (scheme ++ (host ++ (tail ++ 32 :: version))) ∧
    32 ∉ method ∧ scheme.map tolower = ascii "http://" ∧ host ≠ [] ∧ ∀ b ∈ host, b ∉ ascii " :/\r\n"

/-- `parse_request` on a buffer that ends with the line: it reads nothing behind it, uses no null
pointer, and returns -1 if the line lacks a part. -/
def HandlesRequest (line : List UInt8) : Prop :=
  (∃ result, parseRequest line = .ok result) ∧ (¬HasParts line → parseRequest line = .ok none)

/-- `parse_response` on a buffer that ends with the line. -/
def HandlesResponse (line : List UInt8) : Prop := ∃ msg, parseResponse line = .ok msg

/-- The first lines that `parse_request` can deal with. -/
def RequestSafe (line : List UInt8) : Prop :=
  (∃ method text, line = method ++ 32 :: text ∧ (∀ b ∈ method, b ≠ 32 ∧ b ≠ 0) ∧ OtherScheme text) ∨
    ∃ cut : RequestCut line, cut.host ≠ [] ∧ (cut.delimiter = 58 → NumberEnds cut.tail)

/-- The first lines that `parse_response` can deal with. -/
def ResponseSafe (line : List UInt8) : Prop :=
  ∃ version text, line = version ++ 32 :: text ∧ (∀ b ∈ version, b ≠ 32 ∧ b ≠ 0) ∧ NumberEnds text

section Lines
variable {line : List UInt8}

/-- A line that all searches pass has its parts unless the host name is empty. -/
theorem RequestCut.hasParts_iff (cut : RequestCut line) : HasParts line ↔ cut.host ≠ [] := by
  obtain ⟨method, scheme, host, delimiter, tail, uri, version, rfl, second, plain, http, hostPlain, ends, uriPlain⟩ :=
    cut
  have blank : 32 ∉ method := fun mem => (plain 32 mem).1 rfl
  constructor
  · rintro ⟨method', scheme', host', tail', version', split, blank', http', nonempty, plain'⟩ rfl
    obtain ⟨-, rest⟩ := split_unique blank blank' split
    obtain ⟨-, behind⟩ := List.append_inj rest ((scheme_length http).trans (scheme_length http').symm)
    obtain ⟨b, others, rfl⟩ := List.exists_cons_of_ne_nil nonempty
    exact plain' b List.mem_cons_self ((List.cons.inj behind).1 ▸ ends)
  · intro nonempty
    have mem : 32 ∈ scheme ++ (host ++ delimiter :: tail) := by simp [second]
    rcases List.mem_append.mp mem with inScheme | mem
    · exact absurd inScheme (blank_scheme http)
    rcases List.mem_append.mp mem with inHost | inTail
    · exact absurd (by decide) (hostPlain 32 inHost).1
    obtain ⟨before, after, eq⟩ := List.append_of_mem inTail
    exact ⟨method, scheme, host, before, after, by rw [eq], blank, http, nonempty, fun b mem => (hostPlain b mem).1⟩

theorem handlesRequest_iff : HandlesRequest line ↔ RequestSafe line := by
  constructor
  · rintro ⟨⟨result, run⟩, lacking⟩
    cases result with
    | none => exact .inl (parseRequest_none_iff.mp run)
    | some target =>
      obtain ⟨cut, number, -⟩ := parseRequest_some_iff.mp run
      refine .inr ⟨cut, ?_, parsePort_ok.mp ⟨_, number⟩⟩
      rw [← cut.hasParts_iff]
      by_contra lacks
      cases run.symm.trans (lacking lacks)
  · rintro (other | ⟨cut, named, number⟩)
    · have run := parseRequest_none_iff.mpr other
      exact ⟨⟨none, run⟩, fun _ => run⟩
    · obtain ⟨port, read⟩ := parsePort_ok.mpr number
      exact ⟨⟨_, cut.parse read⟩, fun lacks => absurd (cut.hasParts_iff.mpr named) lacks⟩

theorem handlesResponse_iff : HandlesResponse line ↔ ResponseSafe line := by
  unfold HandlesResponse ResponseSafe parseResponse
  constructor
  · rintro ⟨msg, run⟩
    obtain ⟨blank, search, run⟩ := bind_ok run
    obtain ⟨version, text, rfl, rfl, plain⟩ := found_strchr.mp search
    rw [drop_blank, scanned_eq_ok_iff] at run
    exact ⟨version, text, rfl, plain, atoi_isSome.mp ⟨msg, run⟩⟩
  · rintro ⟨version, text, rfl, plain, number⟩
    obtain ⟨msg, read⟩ := atoi_isSome.mpr number
    refine ⟨msg, ?_⟩
    rw [found_strchr.mpr ⟨version, text, rfl, rfl, plain⟩, ok_bind, drop_blank, read]
    rfl

/-- The two parsers deal with a first line if and only if their searches end within it, and
`parse_request` only if in addition the host name is not empty. -/
theorem parsers_safe_iff (line : List UInt8) :
    (HandlesRequest line ↔ RequestSafe line) ∧ (HandlesResponse line ↔ ResponseSafe line) :=
  ⟨handlesRequest_iff, handlesResponse_iff⟩

/-- An empty line has no blank. -/
theorem parsers_unsafe : ¬∀ line, Delivered line → HandlesRequest line ∧ HandlesResponse line := by
  intro always
  obtain ⟨⟨⟨result, run⟩, -⟩, -⟩ := always crlf ⟨crlf.map some, [], by decide +kernel⟩
  cases run

end Lines

end Splab.Proxy
