import Splab.Lib.CString
import Splab.Proxy.Io

namespace Splab.Proxy
open CString

section Steps
variable {α : Type}

/-- A scan that runs over the end of the buffer. -/
def scanned : Option α → Except Fault α
  | some a => .ok a
  | none => .error .overrun

/-- The use of a pointer that `strchr` or `strpbrk` has returned, without a test whether it is null. -/
def found : Option (Option Nat) → Except Fault Nat
  | some (some i) => .ok i
  | some none => .error .nullPtr
  | none => .error .overrun

/-- The bytes that `strncpy` reads when there is no zero byte among them. -/
def strncpy (s : List UInt8) (n : Nat) : Except Fault (List UInt8) :=
  if n ≤ s.length then .ok (s.take n) else .error .overrun

end Steps

@[simp]
theorem ok_bind {α β : Type} {a : α} {f : α → Except Fault β} : (Except.ok a >>= f) = f a := rfl

@[simp]
theorem error_bind {α β : Type} {fault : Fault} {f : α → Except Fault β} :
    (Except.error fault >>= f) = .error fault := rfl

/-- A scan that succeeds has succeeded in each of its steps. -/
theorem bind_ok {α β : Type} {x : Except Fault α} {f : α → Except Fault β} {b : β} (run : (x >>= f) = .ok b) :
    ∃ a, x = .ok a ∧ f a = .ok b := by
  cases x with
  | error fault => cases run
  | ok a => exact ⟨a, rfl, run⟩

theorem found_eq_ok {r : Option (Option Nat)} {i : Nat} (run : found r = .ok i) : r = some (some i) := by
  rcases r with _ | _ | k
  · cases run
  · cases run
  · rw [Except.ok.inj run]

theorem scanned_eq_ok {α : Type} {r : Option α} {a : α} (run : scanned r = .ok a) : r = some a := by
  cases r with
  | none => cases run
  | some b => rw [Except.ok.inj run]

theorem strncpy_append {s t : List UInt8} : strncpy (s ++ t) s.length = .ok s := by
  rw [strncpy, if_pos (by simp), List.take_left]

def ascii (text : String) : List UInt8 := text.toList.map Char.toUInt8

theorem ascii_http : ascii "http://" = [104, 116, 116, 112, 58, 47, 47] := rfl

theorem ascii_contentLength :
    ascii "Content-Length" = [67, 111, 110, 116, 101, 110, 116, 45, 76, 101, 110, 103, 116, 104] := rfl

theorem ascii_contentLength_lower :
    ascii "content-length" = [99, 111, 110, 116, 101, 110, 116, 45, 108, 101, 110, 103, 116, 104] := rfl

def crlf : List UInt8 := [13, 10]

/-- What `parse_request` finds in the request line. -/
structure Target where
  method : List UInt8
  uri : List UInt8
  hostname : List UInt8
  port : Int
  deriving DecidableEq, Repr

def parsePort : List UInt8 → Except Fault Int
  | [] => .error .overrun
  | c :: rest => if c = 58 then scanned (atoi rest) else .ok 80

/-- `parse_request`, without the stores to the buffers; nothing for its result -1. -/
def parseRequest (request : List UInt8) : Except Fault (Option Target) := do
  let blank ← found (strchr request 32)
  let method ← strncpy request blank
  let tok := blank + 1
  let http ← scanned (strncasecmp (request.drop tok) (ascii "http://"))
  if http then do
    let hostbegin := tok + 7
    let len ← found (strpbrk (request.drop hostbegin) (ascii " :/\r\n"))
    let hostname ← strncpy (request.drop hostbegin) len
    let port ← parsePort (request.drop (hostbegin + len))
    let stop ← found (strchr (request.drop tok) 32)
    let uri ← strncpy (request.drop tok) stop
    pure (some ⟨method, uri, hostname, port⟩)
  else pure none

/-- `parse_response`. -/
def parseResponse (response : List UInt8) : Except Fault Int := do
  let blank ← found (strchr response 32)
  scanned (atoi (response.drop (blank + 1)))

/-- The search of `relay_header` for the length in the buffer. -/
def headerLength (buf : List UInt8) : Except Fault (Option Int) := do
  let named ← scanned (strncasecmp buf (ascii "Content-Length"))
  if named then do
    let blank ← found (strchr buf 32)
    let value ← scanned (atoi (buf.drop (blank + 1)))
    pure (some value)
  else pure none

/-- The test of `relay_header` for the end of the header. -/
def lastLine (buf : List UInt8) : Except Fault Bool := scanned (strncmp buf crlf)

/-- The tests of `process` on the method. -/
def isPost (method : List UInt8) : Except Fault Bool := scanned (strncasecmp method (ascii "post"))

def isHead (method : List UInt8) : Except Fault Bool := scanned (strncasecmp method (ascii "head"))

/-- The scan ends within the bytes. -/
def Decided {α : Type} (f : List UInt8 → Except Fault α) (s : List UInt8) : Prop := f s ≠ .error .overrun

/-- The result of the scan does not depend on what lies behind the bytes. -/
def Local {α : Type} (f : List UInt8 → Except Fault α) : Prop := ∀ s t, Decided f s → f (s ++ t) = f s

theorem Decided.of_ok {α : Type} {f : List UInt8 → Except Fault α} {s : List UInt8} {a : α} (run : f s = .ok a) :
    Decided f s := by
  rw [Decided, run]
  simp

section Locality
variable {α β : Type} {f : List UInt8 → Except Fault α} {g : α → List UInt8 → Except Fault β}

theorem local_const (x : Except Fault α) : Local fun _ => x := fun _ _ _ => rfl

theorem Local.bind (first : Local f) (rest : ∀ a, Local (g a)) : Local fun s => f s >>= fun a => g a s := by
  intro s t decided
  have here : Decided f s := by
    intro beyond
    apply decided
    simp only [beyond]
    rfl
  simp only [first s t here]
  cases result : f s with
  | error e => rfl
  | ok a =>
    refine rest a s t fun beyond => decided ?_
    simp only [result]
    exact beyond

theorem Local.ite {c : Bool} {h k : List UInt8 → Except Fault α} (yes : Local h) (no : Local k) :
    Local fun s => if c then h s else k s := by
  cases c
  · exact no
  · exact yes

theorem Local.drop (inner : Local f) (strict : f [] = .error .overrun) (n : Nat) : Local fun s => f (s.drop n) := by
  intro s t decided
  have inside : n ≤ s.length := by
    by_contra outside
    apply decided
    simp only [List.drop_eq_nil_of_le (Nat.le_of_not_le outside)]
    exact strict
  simp only [List.drop_append_of_le_length inside]
  exact inner _ t decided

theorem local_find (p : UInt8 → Bool) : Local fun s => found (find p s) := by
  intro s t decided
  cases result : find p s with
  | none => exact absurd (by simp only [result, found]) decided
  | some r => simp only [result, find_append result]

theorem local_agrees (fold : UInt8 → UInt8) (literal : List UInt8) :
    Local fun s => scanned (agrees fold s literal) := by
  intro s t decided
  cases result : agrees fold s literal with
  | none => exact absurd (by simp only [result, scanned]) decided
  | some r => simp only [result, agrees_append result]

theorem local_atoi : Local fun s => scanned (atoi s) := by
  intro s t decided
  cases result : atoi s with
  | none => exact absurd (by simp only [result, scanned]) decided
  | some r => simp only [result, atoi_append result]

theorem local_strncpy (i n : Nat) : Local fun s => strncpy (s.drop i) n := by
  intro s t decided
  have inside : n ≤ (s.drop i).length := by
    by_contra outside
    exact decided (if_neg outside)
  have longer : n ≤ ((s ++ t).drop i).length := by
    rw [List.length_drop] at inside ⊢
    rw [List.length_append]
    omega
  simp only [strncpy, if_pos inside, if_pos longer]
  rw [List.length_drop] at inside
  by_cases zero : n = 0
  · rw [zero, List.take_zero, List.take_zero]
  · rw [List.drop_append_of_le_length (by omega), List.take_append_of_le_length (by rw [List.length_drop]; omega)]

theorem local_parsePort : Local parsePort := by
  intro s t decided
  cases s with
  | nil => exact absurd rfl decided
  | cons c rest =>
    rw [List.cons_append, parsePort, parsePort]
    split
    · next colon =>
      refine local_atoi rest t fun beyond => decided ?_
      rw [parsePort, if_pos colon]
      exact beyond
    · rfl

theorem local_lastLine : Local lastLine := local_agrees _ _

theorem local_parseResponse : Local parseResponse :=
  (local_find _).bind fun n => local_atoi.drop rfl (n + 1)

theorem local_headerLength : Local headerLength :=
  (local_agrees _ _).bind fun _ => ((local_find _).bind fun n => (local_atoi.drop rfl (n + 1)).bind fun _ =>
    local_const _).ite (local_const _)

theorem local_parseRequest : Local parseRequest := by
  refine (local_find _).bind fun n => (local_strncpy 0 n).bind fun method => ?_
  refine ((local_agrees _ _).drop rfl (n + 1)).bind fun http => .ite ?_ (local_const _)
  refine ((local_find _).drop rfl _).bind fun len => (local_strncpy _ len).bind fun hostname => ?_
  refine (local_parsePort.drop rfl _).bind fun port => ((local_find _).drop rfl _).bind fun stop => ?_
  exact (local_strncpy _ stop).bind fun uri => local_const _

end Locality

end Splab.Proxy
