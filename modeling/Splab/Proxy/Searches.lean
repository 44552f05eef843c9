import Splab.Proxy.Parse

namespace Splab.Proxy
open CString

/-- The text differs from the scheme within its own length. -/
def OtherScheme (text : List UInt8) : Prop :=
  ¬ascii "http://" <+: text.map tolower ∧ ¬text.map tolower <+: ascii "http://"

/-- How a line is cut by the searches of `parse_request`, all of which succeed. -/
structure RequestCut (line : List UInt8) where
  method : List UInt8
  scheme : List UInt8
  host : List UInt8
  delimiter : UInt8
  tail : List UInt8
  uri : List UInt8
  version : List UInt8
  first : line = method ++ 32 :: (scheme ++ (host ++ delimiter :: tail))
  second : scheme ++ (host ++ delimiter :: tail) = uri ++ 32 :: version
  methodPlain : ∀ b ∈ method, b ≠ 32 ∧ b ≠ 0
  http : scheme.map tolower = ascii "http://"
  hostPlain : ∀ b ∈ host, b ∉ ascii " :/\r\n" ∧ b ≠ 0
  ends : delimiter ∈ ascii " :/\r\n"
  uriPlain : ∀ b ∈ uri, b ≠ 32 ∧ b ≠ 0

section Searches
variable {line s : List UInt8} {p : UInt8 → Bool} {c : UInt8} {i : Nat} {port : Int}

theorem found_eq_ok_iff {r : Option (Option Nat)} : found r = .ok i ↔ r = some (some i) :=
  ⟨found_eq_ok, fun eq => by rw [eq]; rfl⟩

theorem scanned_eq_ok_iff {α : Type} {r : Option α} {a : α} : scanned r = .ok a ↔ r = some a :=
  ⟨scanned_eq_ok, fun eq => by rw [eq]; rfl⟩

/-- `strchr` finds the first of the bytes. -/
theorem found_strchr : found (strchr s c) = .ok i ↔
    ∃ pre t, s = pre ++ c :: t ∧ pre.length = i ∧ ∀ b ∈ pre, b ≠ c ∧ b ≠ 0 := by
  rw [found_eq_ok_iff, strchr, find_eq_some]
  simp only [decide_eq_true_eq, decide_eq_false_iff_not]
  constructor
  · rintro ⟨pre, _, t, eq, length, rfl, plain⟩
    exact ⟨pre, t, eq, length, plain⟩
  · rintro ⟨pre, t, eq, length, plain⟩
    exact ⟨pre, c, t, eq, length, rfl, plain⟩

theorem found_strpbrk {accept : List UInt8} : found (strpbrk s accept) = .ok i ↔
    ∃ pre c t, s = pre ++ c :: t ∧ pre.length = i ∧ c ∈ accept ∧ ∀ b ∈ pre, b ∉ accept ∧ b ≠ 0 := by
  rw [found_eq_ok_iff, strpbrk, find_eq_some]
  simp only [decide_eq_true_eq, decide_eq_false_iff_not]

theorem parsePort_ok : (∃ port, parsePort (c :: s) = .ok port) ↔ (c = 58 → NumberEnds s) := by
  rw [parsePort]
  split
  · next colon => simp only [colon, true_implies, scanned_eq_ok_iff, atoi_isSome]
  · next other => exact iff_of_true ⟨80, rfl⟩ fun colon => absurd colon other

theorem lower_http : (ascii "http://").map tolower = ascii "http://" := by
  rw [ascii_http]
  decide

/-- The scan of the scheme. -/
theorem scanned_http {text : List UInt8} {http : Bool} :
    scanned (strncasecmp text (ascii "http://")) = .ok http ↔
      if http then ∃ scheme t, text = scheme ++ t ∧ scheme.map tolower = ascii "http://" else OtherScheme text := by
  rw [scanned_eq_ok_iff, strncasecmp]
  cases http with
  | false => simp only [agrees_eq_false_iff, lower_http, OtherScheme, Bool.false_eq_true, if_false]
  | true =>
    rw [agrees_eq_true_iff, lower_http, if_pos rfl]
    constructor
    · rintro ⟨t, eq⟩
      obtain ⟨scheme, rest, rfl, same, -⟩ := List.map_eq_append_iff.mp eq.symm
      exact ⟨scheme, rest, rfl, same⟩
    · rintro ⟨scheme, t, rfl, same⟩
      rw [List.map_append, same]
      exact List.prefix_append ..

/-- The text before the first of some byte is determined by the whole. -/
theorem split_unique {pre pre' t t' : List UInt8} {c : UInt8} (absent : c ∉ pre) (absent' : c ∉ pre')
    (same : pre ++ c :: t = pre' ++ c :: t') : pre = pre' ∧ t = t' := by
  have start : ∀ {s r : List UInt8}, c ∉ s → (s ++ c :: r).takeWhile (· ≠ c) = s := fun {s r} none => by
    have all : ∀ b ∈ s, decide (b ≠ c) = true := fun b mem => decide_eq_true fun eq => none (eq ▸ mem)
    rw [List.takeWhile_append_of_pos all, List.takeWhile_cons_of_neg (by simp), List.append_nil]
  have first : pre = pre' := by rw [← start absent, same, start absent']
  subst first
  exact ⟨rfl, List.tail_eq_of_cons_eq (List.append_cancel_left same)⟩

end Searches

section Request
variable {line : List UInt8} {target : Target}

/-- The line behind its first blank. -/
theorem drop_blank {method text : List UInt8} : (method ++ 32 :: text).drop (method.length + 1) = text := by
  rw [List.append_cons]
  exact List.drop_left' (by simp)

theorem scheme_length {scheme : List UInt8} (http : scheme.map tolower = ascii "http://") : scheme.length = 7 := by
  have lengths := congrArg List.length http
  rwa [List.length_map] at lengths

theorem blank_scheme {scheme : List UInt8} (http : scheme.map tolower = ascii "http://") : 32 ∉ scheme := by
  intro mem
  have folded : tolower 32 ∈ ascii "http://" := http ▸ List.mem_map_of_mem mem
  rw [ascii_http] at folded
  revert folded
  decide

theorem RequestCut.parse (cut : RequestCut line) {port : Int}
    (number : parsePort (cut.delimiter :: cut.tail) = .ok port) :
    parseRequest line = .ok (some ⟨cut.method, cut.uri, cut.host, port⟩) := by
  obtain ⟨method, scheme, host, delimiter, tail, uri, version, rfl, second, plain, http, hostPlain, ends, uriPlain⟩ :=
    cut
  have blank : found (strchr (method ++ 32 :: (scheme ++ (host ++ delimiter :: tail))) 32) = .ok method.length :=
    found_strchr.mpr ⟨method, _, rfl, rfl, plain⟩
  have same : scanned (strncasecmp (scheme ++ (host ++ delimiter :: tail)) (ascii "http://")) = .ok true :=
    scanned_http.mpr ⟨scheme, _, rfl, http⟩
  have hostbegin : (method ++ 32 :: (scheme ++ (host ++ delimiter :: tail))).drop (method.length + 1 + 7) =
      host ++ delimiter :: tail := by
    rw [← List.drop_drop, drop_blank, ← scheme_length http, List.drop_left]
  have len : found (strpbrk (host ++ delimiter :: tail) (ascii " :/\r\n")) = .ok host.length :=
    found_strpbrk.mpr ⟨host, delimiter, tail, rfl, rfl, ends, hostPlain⟩
  have atPort : (method ++ 32 :: (scheme ++ (host ++ delimiter :: tail))).drop (method.length + 1 + 7 + host.length) =
      delimiter :: tail := by
    rw [← List.drop_drop, hostbegin, List.drop_left]
  have stop : found (strchr (scheme ++ (host ++ delimiter :: tail)) 32) = .ok uri.length :=
    found_strchr.mpr ⟨uri, version, second, rfl, uriPlain⟩
  have text : strncpy (scheme ++ (host ++ delimiter :: tail)) uri.length = .ok uri := by
    rw [second]
    exact strncpy_append
  unfold parseRequest
  simp only [blank, ok_bind, strncpy_append, drop_blank, same, hostbegin, len, atPort, number, stop, text, if_true]
  rfl

/-- `parse_request` accepts the lines in which all its searches succeed. -/
theorem parseRequest_some_iff : parseRequest line = .ok (some target) ↔
    ∃ cut : RequestCut line, parsePort (cut.delimiter :: cut.tail) = .ok target.port ∧
      cut.method = target.method ∧ cut.uri = target.uri ∧ cut.host = target.hostname := by
  constructor
  · intro run
    unfold parseRequest at run
    obtain ⟨blank, search, run⟩ := bind_ok run
    obtain ⟨method, text, rfl, rfl, plain⟩ := found_strchr.mp search
    simp only [strncpy_append, ok_bind, drop_blank] at run
    obtain ⟨http, same, run⟩ := bind_ok run
    cases http with
    | false => cases run
    | true =>
      obtain ⟨scheme, rest, rfl, http⟩ := scanned_http.mp same
      have hostbegin : (method ++ 32 :: (scheme ++ rest)).drop (method.length + 1 + 7) = rest := by
        rw [← List.drop_drop, drop_blank, ← scheme_length http, List.drop_left]
      rw [if_pos rfl, hostbegin] at run
      obtain ⟨len, search, run⟩ := bind_ok run
      obtain ⟨host, delimiter, tail, rfl, rfl, ends, hostPlain⟩ := found_strpbrk.mp search
      rw [strncpy_append, ok_bind, ← List.drop_drop, hostbegin, List.drop_left] at run
      obtain ⟨port, number, run⟩ := bind_ok run
      obtain ⟨stop, search, run⟩ := bind_ok run
      obtain ⟨uri, version, second, rfl, uriPlain⟩ := found_strchr.mp search
      rw [second, strncpy_append, ok_bind] at run
      cases run
      exact ⟨⟨method, scheme, host, delimiter, tail, uri, version, rfl, second, plain, http, hostPlain, ends, uriPlain⟩,
        number, rfl, rfl, rfl⟩
  · rintro ⟨cut, number, method, uri, host⟩
    rw [cut.parse number, method, uri, host]

theorem parseRequest_method {method s : List UInt8} (plain : ∀ b ∈ method, b ≠ 32 ∧ b ≠ 0)
    (run : parseRequest (method ++ 32 :: s) = .ok (some target)) : target.method = method := by
  obtain ⟨cut, -, same, -⟩ := parseRequest_some_iff.mp run
  rw [← same]
  exact (split_unique (fun mem => (cut.methodPlain 32 mem).1 rfl) (fun mem => (plain 32 mem).1 rfl)
    cut.first.symm).1

/-- It returns -1 for another scheme. -/
theorem parseRequest_none_iff : parseRequest line = .ok none ↔
    ∃ method text, line = method ++ 32 :: text ∧ (∀ b ∈ method, b ≠ 32 ∧ b ≠ 0) ∧ OtherScheme text := by
  constructor
  · intro run
    unfold parseRequest at run
    obtain ⟨blank, search, run⟩ := bind_ok run
    obtain ⟨method, text, rfl, rfl, plain⟩ := found_strchr.mp search
    simp only [strncpy_append, ok_bind, drop_blank] at run
    obtain ⟨http, same, run⟩ := bind_ok run
    cases http with
    | false => exact ⟨method, text, rfl, plain, scanned_http.mp same⟩
    | true =>
      rw [if_pos rfl] at run
      obtain ⟨_, _, run⟩ := bind_ok run
      obtain ⟨_, _, run⟩ := bind_ok run
      obtain ⟨_, _, run⟩ := bind_ok run
      obtain ⟨_, _, run⟩ := bind_ok run
      obtain ⟨_, _, run⟩ := bind_ok run
      cases run
  · rintro ⟨method, text, rfl, plain, other⟩
    have blank : found (strchr (method ++ 32 :: text) 32) = .ok method.length :=
      found_strchr.mpr ⟨method, text, rfl, rfl, plain⟩
    have http : scanned (strncasecmp text (ascii "http://")) = .ok false := scanned_http.mpr other
    unfold parseRequest
    simp only [blank, ok_bind, strncpy_append, drop_blank, http]
    rfl

end Request

end Splab.Proxy
