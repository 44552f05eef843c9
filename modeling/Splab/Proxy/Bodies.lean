import Splab.Proxy.Streams

namespace Splab.Proxy

/-- How many of `available` bytes are copied when `copied` have been: all of them for the content 0, which
stands for no limit. -/
def share (content : Int) (copied available : Nat) : Nat :=
  if content = 0 then available else min (content.toNat - copied) available

section Copies
variable {content : Int} {len k : Nat} {out : Output} {waiting bytes : List UInt8} {b : UInt8} {s : Conn}
  {source target : Side}

theorem share_stop (stop : content ≠ 0 ∧ (k : Int) = content) : share content k bytes.length = 0 := by
  rw [share, if_neg stop.1]
  omega

theorem share_cons (more : ¬(content ≠ 0 ∧ (k : Int) = content)) (ahead : content = 0 ∨ (k : Int) ≤ content) :
    share content k (b :: bytes).length = share content (k + 1) bytes.length + 1 := by
  unfold share
  rw [List.length_cons]
  split <;> omega

/-- The bytes that waited go out before those that are read, up to the content's end. -/
theorem pour_copies (len : Nat) (waiting bytes : List UInt8) (k : Nat) (clean : .failed ∉ out.writes)
    (ahead : content = 0 ∨ (k : Int) ≤ content) (small : k + bytes.length < 2 ^ 31) :
    ∃ later, .failed ∉ later ∧ pour content len (bytes.map some) out waiting k =
      (((k + share content k bytes.length : Nat) : Int), (bytes.drop (share content k bytes.length)).map some,
        ⟨out.sent ++ waiting ++ bytes.take (share content k bytes.length), later⟩) := by
  induction bytes generalizing out waiting k with
  | nil =>
    obtain ⟨out', waiting', clean', same, round⟩ := pour_round content len waiting k clean
    have none : share content k ([] : List UInt8).length = 0 := by
      unfold share
      split <;> simp
    rw [none, round]
    split
    · obtain ⟨later, still, all⟩ := @sendAll_clean out.writes out.sent waiting clean
      exact ⟨later, still, by simp [all]⟩
    · obtain ⟨later, still, all⟩ := @sendAll_clean out'.writes out'.sent waiting' clean'
      exact ⟨later, still, by simp [all, same]⟩
  | cons b bytes ih =>
    obtain ⟨out', waiting', clean', same, round⟩ := pour_round content len waiting k clean
    rw [round]
    by_cases stop : content ≠ 0 ∧ (k : Int) = content
    · obtain ⟨later, still, all⟩ := @sendAll_clean out.writes out.sent waiting clean
      rw [if_pos stop, all, share_stop stop]
      exact ⟨later, still, by simp⟩
    · rw [List.length_cons] at small
      have next : ((k : Int) + 1).bmod (2 ^ 32) = (k + 1 : Nat) := by
        rw [Int.bmod_eq_of_le] <;> omega
      obtain ⟨later, still, poured⟩ := ih (waiting' ++ [b]) (k + 1) clean' (by omega) (by omega)
      rw [if_neg stop, share_cons stop ahead]
      simp only [List.map_cons, next]
      refine ⟨later, still, poured.trans ?_⟩
      rw [List.drop_succ_cons, List.take_succ_cons, ← List.append_assoc, same]
      simp only [List.append_assoc, List.singleton_append, show k + 1 + share content (k + 1) bytes.length =
        k + (share content (k + 1) bytes.length + 1) by omega]

/-- `relay_content` copies the first `content` bytes of the stream, or all of them for the content 0, however
many bytes each call of `write` takes; the buffer has room for `len` bytes and no more. -/
theorem relayContent_copies (positive : 0 ≤ content) (bytes : List UInt8) (small : bytes.length < 2 ^ 31)
    (low : 1 ≤ len)
    (size : s.buf.length = len) (stream : s.input source = bytes.map some)
    (clean : .failed ∉ (s.output target).writes) :
    ∃ later buf, .failed ∉ later ∧ buf.length = len ∧
      relayContent source target content len s = .ok ((share content 0 bytes.length : Nat) : Int)
        (s.after source target ((bytes.drop (share content 0 bytes.length)).map some)
          ⟨(s.output target).sent ++ bytes.take (share content 0 bytes.length), later⟩ buf) := by
  obtain ⟨later, still, poured⟩ := pour_copies len [] bytes 0 clean (.inr positive) (by omega)
  rw [← stream, List.append_nil, Nat.zero_add] at poured
  obtain ⟨buf, length, run⟩ := relayContent_run low size.ge poured
  exact ⟨later, buf, still, length.trans size, run⟩

def fiveBytes : List UInt8 := [1, 2, 3, 4, 5]

/-- A server that sends five bytes, and a client that takes a single one at first. -/
def fiveConn : Conn where
  input _ := fiveBytes.map some
  output _ := ⟨[], [.upTo 0]⟩
  buf := [0, 0]
  dialled := none
  log := none

theorem relayContent_three : ∃ later buf, .failed ∉ later ∧ buf.length = 2 ∧
    relayContent .server .client 3 2 fiveConn = .ok ((share 3 0 fiveBytes.length : Nat) : Int)
      (fiveConn.after .server .client ((fiveBytes.drop (share 3 0 fiveBytes.length)).map some)
        ⟨(fiveConn.output .client).sent ++ fiveBytes.take (share 3 0 fiveBytes.length), later⟩ buf) :=
  relayContent_copies (by decide) fiveBytes (by decide) (by decide) rfl rfl (by decide)

end Copies

end Splab.Proxy
