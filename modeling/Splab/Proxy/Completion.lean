import Splab.Proxy.Isolation

namespace Splab.Proxy

/-- The rank of the stage behind a body. -/
def Relay.rank (r : Relay) : Nat :=
  match r.half with
  | .request => 10
  | .response _ _ => 8

/-- The steps that a thread makes at most from here, those paid by its peers apart. Bytes that wait in the buffer count
one each, as a call of `write` takes one of them at least. -/
def Stage.rank : Stage → Nat
  | .detach => 19
  | .readline .request i => 18 + i
  | .readline (.header r _ _) i => r.rank + 3 + i
  | .readline (.reply _ _) i => 10 + i
  | .writebuf (.line r) left | .writebuf (.header r _ _) left => r.rank + 4 + left.length
  | .writebuf (.full r _ _) left => r.rank + 3 + left.length
  | .writebuf (.last r _) left => r.rank + 1 + left.length
  | .relayContent r _ _ j => r.rank + (if j = maxLine then 4 else 2) + j
  | .lockSyscall _ len => 20 + len
  | .resolve _ len => 19 + len
  | .copy _ len => 18 + len
  | .unlockSyscall _ len _ => 17 + len
  | .socket _ len _ => 16 + len
  | .connect _ len _ _ => 15 + len
  | .lockLogfile _ _ _ => 8
  | .localtime _ _ _ => 7
  | .format _ _ _ => 6
  | .print _ _ _ => 5
  | .append _ _ _ => 4
  | .unlockLogfile _ => 3
  | .closeServer _ => 2
  | .closeClient => 1
  | .done => 0

/-- A byte that has arrived pays for four steps. -/
def Stream.pays (s : Stream) : Nat := 4 * s.unread.length

def ownRank (t : Nat) (own : Option Worker) (g : Shared) : Nat :=
  own.elim 0 fun w => w.stage.rank + ((g.streams (.socket .client t)).pays + (g.streams (.socket .server t)).pays)

/-- The steps that the threads make at most from here; a crash is one more. -/
def Process.rank (s : Process) : Nat :=
  Threads.rank ownRank (Finset.range s.shared.accepted) s + if s.shared.crashed = none then 1 else 0

/-- The steps of threads. -/
def Act.steps : Act → Nat
  | .work _ _ => 1
  | _ => 0

/-- What it pays for. -/
def Act.pays : Act → Nat
  | .accept _ _ _ => 19
  | .work _ _ => 0
  | .peer _ (.sends events) => 4 * events.length
  | .peer _ _ => 0

/-- The thread waits for one of its peers: in a call of `read` or of `write`. -/
def Worker.Waits (w : Worker) (t : Nat) (g : Shared) : Prop :=
  match w.stage with
  | .readline call _ => (g.streams (.socket call.side t)).unread = [] ∧ (g.streams (.socket call.side t)).closed = false
  | .relayContent r content i j => ¬(content ≠ 0 ∧ i = content) ∧ j ≠ maxLine ∧
    (g.streams (.socket r.source t)).unread = [] ∧ (g.streams (.socket r.source t)).closed = false
  | .writebuf call left => left ≠ [] ∧ (g.streams (.socket call.relay.target t)).untaken = []
  | _ => False

/-- All threads have come to their end, or the process has crashed. -/
def Process.Ended (s : Process) : Prop := s.shared.crashed ≠ none ∨ ∀ t, ∀ w ∈ s.own t, w.stage = .done

/-- Steps of threads, and of peers that have sent everything and take what they are sent. -/
def Act.Closing : Act → Prop
  | .work _ _ | .peer _ .closes | .peer _ (.takes [.upTo _]) => True
  | _ => False

/-- The descriptors of `main` stay open, and there is always one that is not open. -/
structure Tabled (opened : Finset Nat) (g : Shared) : Prop where
  main : ∀ fd, g.table fd = some .main ↔ fd ∈ opened
  finite : {fd | g.table fd ≠ none}.Finite

section Ranks
variable {w w' : Worker} {t fd through : Nat} {g g' : Shared} {s s' : Process} {e : Nat × Act} {r : Relay}
  {next : Stage} {side : Side}

theorem rank_relayed {parsed : Parsed} {newfd : Nat} {sum : Int} : (relayed parsed newfd sum).rank ≤ 8 := by
  unfold relayed
  split <;> simp [Stage.rank]

theorem Relay.rank_content {len : Int} : (r.afterContent len).rank ≤ r.rank := by
  obtain ⟨half, parsed, newfd⟩ := r
  cases half with
  | request => exact le_rfl
  | response msg sum => exact rank_relayed

theorem rank_content_start {content i : Int} : (Stage.relayContent r content i 0).rank = r.rank + 2 := rfl

theorem Relay.rank_header {content : Int} (after : r.afterHeader content = .ok next) : next.rank ≤ r.rank + 2 := by
  obtain ⟨half, parsed, newfd⟩ := r
  cases half with
  | request =>
    obtain ⟨post, _, after⟩ := bind_ok after
    cases after
    split
    · exact rank_content_start.le
    · simp [Stage.rank, rank]
  | response msg sum =>
    obtain ⟨head, _, after⟩ := bind_ok after
    cases after
    split
    · exact rank_content_start.le
    · exact rank_relayed.trans (Nat.le_add_right _ _)

/-- A call of `readline` that has read something has been paid. -/
theorem Line.rank_after {call : Line} {scratch : Scratch} {buf : List UInt8} {len : Int} {i : Nat}
    (after : call.after scratch buf len = .ok next) (read : len ≤ i + 1) :
    next.rank + 1 ≤ (Stage.readline call i).rank + if 0 < len then 4 else 0 := by
  cases call with
  | request =>
    change _ ≤ 18 + i + _
    rw [Line.after] at after
    by_cases positive : 0 < len
    · rw [if_pos positive] at after ⊢
      obtain ⟨target, _, after⟩ := bind_ok after
      cases target with
      | none =>
        cases after
        simp only [Stage.rank]
        omega
      | some target =>
        cases after
        simp only [Stage.rank]
        omega
    · rw [if_neg positive] at after ⊢
      cases after
      simp only [Stage.rank]
      omega
  | header r sum content =>
    change _ ≤ r.rank + 3 + i + _
    rw [Line.after] at after
    by_cases failed : len < 0
    · rw [if_pos failed] at after
      have less := Relay.rank_header after
      omega
    · rw [if_neg failed] at after
      obtain ⟨length, _, after⟩ := bind_ok after
      simp only at after
      by_cases ended : len = 0
      · rw [if_pos ended] at after
        have less := Relay.rank_header after
        omega
      · rw [if_neg ended] at after
        cases after
        have less := List.length_take_le len.toNat buf
        rw [if_pos (by omega)]
        simp only [Stage.rank]
        omega
  | reply parsed newfd =>
    change _ ≤ 10 + i + _
    rw [Line.after] at after
    by_cases positive : 0 < len
    · rw [if_pos positive] at after ⊢
      obtain ⟨msg, _, after⟩ := bind_ok after
      cases after
      have less := List.length_take_le len.toNat buf
      simp only [Stage.rank, Relay.rank]
      omega
    · rw [if_neg positive] at after ⊢
      cases after
      have less := @rank_relayed parsed newfd 0
      omega

theorem Write.rank_after {call : Write} {buf left : List UInt8} {done : Bool} (after : call.after buf done = .ok next) :
    next.rank + 1 ≤ (Stage.writebuf call left).rank := by
  cases call with
  | line r =>
    cases after
    simp only [Stage.rank]
    omega
  | header r sum content =>
    change _ ≤ r.rank + 4 + left.length
    cases done with
    | false =>
      have less := Relay.rank_header after
      omega
    | true =>
      obtain ⟨last, _, after⟩ := bind_ok after
      cases last with
      | true =>
        have less := Relay.rank_header after
        omega
      | false =>
        cases after
        simp only [Stage.rank]
        omega
  | full r content i =>
    change _ ≤ r.rank + 3 + left.length
    cases after
    split
    · rw [rank_content_start]
      omega
    · have less := @Relay.rank_content r (-1)
      omega
  | last r i =>
    cases after
    change _ ≤ r.rank + 1 + left.length
    have less := @Relay.rank_content r i
    omega

theorem ownRank_some : ownRank t (some w) g =
    w.stage.rank + ((g.streams (.socket .client t)).pays + (g.streams (.socket .server t)).pays) := rfl

theorem pays_withStream {s : Stream} :
    ownRank t (some w) (g.withStream (.socket side t) s) + (g.streams (.socket side t)).pays =
      w.stage.rank + ((g.streams (.socket .client t)).pays + (g.streams (.socket .server t)).pays) + s.pays := by
  cases side with
  | client =>
    simp only [ownRank, Option.elim_some, streams_self]
    rw [streams_of_ne (by simp)]
    omega
  | server =>
    simp only [ownRank, Option.elim_some, streams_self]
    rw [streams_of_ne (by simp)]
    omega

theorem call_pays {stream stream' : Stream} {got : Got} (reads : stream.call = some (got, stream')) :
    stream'.pays ≤ stream.pays ∧ ∀ b, got = .byte b → stream'.pays + 4 = stream.pays := by
  unfold Stream.call at reads
  unfold Stream.pays
  split at reads
  · cases (Option.ite_none_right_eq_some.mp reads).2
    exact ⟨le_rfl, nofun⟩
  · next unread =>
    cases reads
    refine ⟨?_, nofun⟩
    simp only [unread, List.length_cons]
    omega
  · next unread =>
    cases reads
    simp only [unread, List.length_cons]
    exact ⟨by omega, fun _ _ => by omega⟩

/-- A call of `write` takes a byte at least. -/
theorem round_pays {stream stream' : Stream} {round : Round} {left : List UInt8}
    (writes : stream.round left = some (round, stream')) :
    stream'.pays = stream.pays ∧ ∀ rest, round = .more rest → rest.length + 1 ≤ left.length := by
  unfold Stream.round at writes
  split at writes
  · cases writes
    exact ⟨rfl, nofun⟩
  · cases writes
  · next b data more rest untaken =>
    cases writes
    refine ⟨rfl, fun rest same => ?_⟩
    cases same
    simp only [List.length_drop, List.length_cons]
    omega
  · cases writes
    exact ⟨rfl, nofun⟩
  · cases writes
    exact ⟨rfl, nofun⟩

/-- What has been paid when a thread has left a call for another stage. -/
theorem rank_withStream {s : Stream} {paid : Nat} (stage : w'.stage.rank + 1 ≤ w.stage.rank + paid)
    (pays : s.pays + paid ≤ (g.streams (.socket side t)).pays) :
    ownRank t (some w') (g.withStream (.socket side t) s) + 1 ≤ ownRank t (some w) g := by
  have before := @ownRank_some w t g
  have after := @pays_withStream w' t g side s
  omega

theorem rank_unpaid {s : Stream} (stage : w'.stage.rank + 1 ≤ w.stage.rank)
    (pays : s.pays ≤ (g.streams (.socket side t)).pays) :
    ownRank t (some w') (g.withStream (.socket side t) s) + 1 ≤ ownRank t (some w) g :=
  @rank_withStream w w' t g side s 0 stage pays

/-- A crash makes no more than one step. -/
theorem rank_crash {s : Stream} (stage : w'.stage = w.stage) (pays : s.pays ≤ (g.streams (.socket side t)).pays) :
    ownRank t (some w') (g.withStream (.socket side t) s) ≤ ownRank t (some w) g := by
  have before := @ownRank_some w t g
  have after := @pays_withStream w' t g side s
  rw [stage] at after
  omega

theorem lineRound_len {buf buf' : List UInt8} {i : Nat} {got : Got} {len : Int}
    (round : lineRound buf i got = (buf', some len)) : len ≤ i + 1 := by
  cases got with
  | byte b =>
    rw [lineRound] at round
    split at round
    · cases round
      exact le_rfl
    · cases round
  | eof | failed =>
    cases round
    omega

theorem lineRound_paid {buf buf' : List UInt8} {i : Nat} {got : Got} {len : Option Int} {stream stream' : Stream}
    (reads : stream.call = some (got, stream')) (round : lineRound buf i got = (buf', len)) :
    stream'.pays + len.elim 4 (fun len => if 0 < len then 4 else 0) ≤ stream.pays := by
  obtain ⟨less, paid⟩ := call_pays reads
  cases got with
  | byte b =>
    have three := paid b rfl
    cases len with
    | none => exact three.le
    | some len =>
      rw [Option.elim_some]
      split <;> omega
  | eof =>
    cases round
    exact less
  | failed =>
    cases round
    exact less

theorem Worker.Moves.rank (moves : w.Moves t fd through g w' g') (owns : Owns t (some w) g) (runs : g.crashed = none) :
    ownRank t (some w') g' + 1 ≤ ownRank t (some w) g ∧ g'.crashed = none ∨
      ownRank t (some w') g' ≤ ownRank t (some w) g ∧ g'.crashed ≠ none := by
  cases moves with
  | @read call i file got stream buf stage atFile reads round =>
    cases owns.behind stage rfl atFile
    refine .inl ⟨rank_withStream ?_ (lineRound_paid reads round), runs⟩
    rw [stage]
    cases call <;> simp only [goto_stage, Stage.rank, Option.elim_none] <;> omega
  | @line call i file got stream buf len next stage atFile reads round after =>
    cases owns.behind stage rfl atFile
    refine .inl ⟨rank_withStream ?_ (lineRound_paid reads round), runs⟩
    rw [stage]
    exact Line.rank_after after (lineRound_len round)
  | @lineCrash call i file got stream buf len fault stage atFile reads =>
    cases owns.behind stage rfl atFile
    exact .inr ⟨rank_crash rfl (call_pays reads).1, nofun⟩
  | @write call left rest file stream stage atFile writes =>
    cases owns.behind stage rfl atFile
    refine .inl ⟨rank_unpaid ?_ (round_pays writes).1.le, runs⟩
    have less := (round_pays writes).2 rest rfl
    rw [stage]
    cases call <;> simp only [goto_stage, Stage.rank] <;> omega
  | written stage atFile writes after =>
    cases owns.behind stage rfl atFile
    refine .inl ⟨rank_unpaid ?_ (round_pays writes).1.le, runs⟩
    rw [stage]
    exact Write.rank_after after
  | writeCrash stage atFile writes | killed stage atFile writes =>
    cases owns.behind stage rfl atFile
    exact .inr ⟨rank_crash rfl (round_pays writes).1.le, nofun⟩
  | @byte r content i j file b stream stage goes short atFile reads =>
    cases owns.behind stage rfl atFile
    refine .inl ⟨rank_withStream ?_ ((call_pays reads).2 b rfl).le, runs⟩
    rw [stage]
    simp only [goto_stage, Stage.rank, if_neg short]
    split <;> omega
  | @eof r content i j file stream stage goes short atFile reads =>
    cases owns.behind stage rfl atFile
    refine .inl ⟨rank_unpaid ?_ (call_pays reads).1, runs⟩
    have less := List.length_take_le j w.buf
    rw [stage]
    simp only [goto_stage, Stage.rank, if_neg short]
    omega
  | @failed r content i j file stream stage goes short atFile reads =>
    cases owns.behind stage rfl atFile
    refine .inl ⟨rank_unpaid ?_ (call_pays reads).1, runs⟩
    have less := @Relay.rank_content r (-1)
    rw [stage]
    change (r.afterContent (-1)).rank + 1 ≤ r.rank + (if j = maxLine then 4 else 2) + j
    rw [if_neg short]
    omega
  | formatCrash => exact .inr ⟨le_rfl, nofun⟩
  | @whole r content i j stage =>
    refine .inl ⟨Nat.add_lt_add_right ?_ _, runs⟩
    have less := List.length_take_le j w.buf
    rw [stage]
    simp only [goto_stage, Stage.rank]
    split <;> omega
  | full stage =>
    refine .inl ⟨Nat.add_lt_add_right ?_ _, runs⟩
    have less := List.length_take_le maxLine w.buf
    rw [stage]
    simp only [goto_stage, Stage.rank, if_true]
    omega
  | @connect parsed len newfd address server stage =>
    refine .inl ⟨Nat.add_lt_add_right ?_ _, runs⟩
    have less := List.length_take_le len w.buf
    rw [stage]
    simp only [Stage.rank, Relay.rank]
    omega
  | _ =>
    refine .inl ⟨Nat.add_lt_add_right ?_ _, runs⟩
    rw [‹w.stage = _›]
    simp only [goto_stage, Stage.rank]
    omega

theorem ownRank_streams {own : Option Worker}
    (same : ∀ side, g'.streams (.socket side t) = g.streams (.socket side t)) : ownRank t own g' = ownRank t own g := by
  cases own with
  | none => rfl
  | some w => simp only [ownRank, same]

/-- What a peer does pays for as many steps. -/
theorem rank_peer {own : Option Worker} {event : Peer} :
    ownRank t own (g.peer t side event) ≤ ownRank t own g + (Act.peer side event).pays := by
  have paid : ((g.streams (.socket side t)).peer event).pays ≤
      (g.streams (.socket side t)).pays + (Act.peer side event).pays := by
    cases event with
    | closes => exact le_rfl
    | takes outcomes => exact le_rfl
    | sends events =>
      simp only [Stream.peer, Act.pays, Stream.pays]
      split
      · omega
      · simp only [List.length_append]
        omega
  cases own with
  | none => exact Nat.zero_le _
  | some w =>
    have before := @ownRank_some w t g
    have after := @pays_withStream w t g side ((g.streams (.socket side t)).peer event)
    unfold Shared.peer
    omega

theorem rank_accept {session : Session} {created : Bool} :
    ownRank t (if created then some (session.worker fd (g.accept t fd session.peer).client) else none)
      (g.accept t fd session.peer) ≤ 19 := by
  have fresh : ∀ side, (g.accept t fd session.peer).streams (.socket side t) = .fresh := fun _ => if_pos rfl
  cases created with
  | false => exact Nat.zero_le _
  | true =>
    simp only [if_true, ownRank, Option.elim_some, fresh]
    exact le_rfl

/-- A step of a thread is paid. -/
theorem rank_step (orderly : s.All Orderly) (next : s.step e = some s') :
    s'.rank + e.2.steps ≤ s.rank + e.2.pays := by
  obtain ⟨t, a⟩ := e
  obtain ⟨own', g', made, rfl⟩ := Threads.step_eq_some.mp next
  have others : ∀ u ≠ t, ownRank u (s.own u) g' = ownRank u (s.own u) s.shared := fun u ne =>
    ownRank_streams (act_streams made (orderly t).owns ne)
  obtain ⟨runs, ⟨fd, session, created, rfl, -, rfl, fresh, rfl, rfl⟩ | ⟨fd, through, w, w', rfl, own, rfl, moves⟩ |
    ⟨side, event, rfl, known, rfl, rfl⟩⟩ := act_cases made
  · have sum := @Threads.rank_insert _ _ _ _ s.shared.accepted (Finset.range s.shared.accepted) ownRank s
      (if created then some (session.worker fd (s.shared.accept s.shared.accepted fd session.peer).client) else none)
      (s.shared.accept s.shared.accepted fd session.peer) Finset.notMem_range_self others
    rw [← Finset.range_add_one] at sum
    have small := @rank_accept s.shared.accepted fd s.shared session created
    change Threads.rank ownRank (Finset.range (s.shared.accepted + 1)) _ +
      (if s.shared.crashed = none then 1 else 0) + 0 ≤
      Threads.rank ownRank (Finset.range s.shared.accepted) s + (if s.shared.crashed = none then 1 else 0) + 19
    omega
  · have owns := (orderly t).owns
    rw [own] at owns
    have sum := @Threads.rank_update _ _ _ _ t (Finset.range s.shared.accepted) ownRank s (some w') g'
      (Finset.mem_range.mpr owns.accepted) others
    rw [own] at sum
    have accepted := moves.main.1
    rw [Process.rank, Process.rank, if_pos runs, accepted]
    simp only [Act.steps, Act.pays]
    rcases moves.rank owns runs with ⟨less, runs'⟩ | ⟨less, crashed⟩
    · rw [if_pos runs']
      omega
    · rw [if_neg crashed]
      omega
  · have sum := @Threads.rank_update _ _ _ _ t (Finset.range s.shared.accepted) ownRank s (s.own t)
      (s.shared.peer t side event) (Finset.mem_range.mpr known) others
    have paid := @rank_peer t s.shared side (s.own t) event
    change Threads.rank ownRank (Finset.range s.shared.accepted) _ + (if s.shared.crashed = none then 1 else 0) + 0 ≤
      Threads.rank ownRank (Finset.range s.shared.accepted) s + (if s.shared.crashed = none then 1 else 0) + _
    simp only
    omega

end Ranks

section Progress
variable {w w' : Worker} {t fd through : Nat} {g g' : Shared} {s s' : Process} {opened : Finset Nat} {side : Side}
  {stage : Stage}

theorem Owns.file (owns : Owns t (some w) g) (here : w.stage = stage) (running : stage.ended = false)
    (opened : side = .server → stage.newfd ≠ none) : w.file g stage.newfd side = some (.socket side t) := by
  subst here
  cases side with
  | client => exact owns.sockfd running
  | server =>
    obtain ⟨fd, newfd⟩ := Option.ne_none_iff_exists'.mp (opened rfl)
    rw [newfd]
    exact owns.newfd newfd

/-- A call of `read` returns unless nothing has arrived and the other side is open. -/
theorem call_isSome {stream : Stream} :
    stream.call.isSome = true ↔ ¬(stream.unread = [] ∧ stream.closed = false) := by
  unfold Stream.call
  cases unread : stream.unread with
  | nil => cases closed : stream.closed <;> simp
  | cons event rest => cases event <;> simp

theorem round_isSome {stream : Stream} {left : List UInt8} :
    (stream.round left).isSome = true ↔ ¬(left ≠ [] ∧ stream.untaken = []) := by
  unfold Stream.round
  cases left with
  | nil => simp
  | cons b data =>
    cases untaken : stream.untaken with
    | nil => simp
    | cons taking rest => cases taking <;> simp

/-- A thread that has not ended can make a step, unless it waits for a peer or for a mutex. -/
theorem Worker.work_progress (w : Worker) (orderly : Orderly t (some w) g) (fresh : g.table fd = none)
    (running : w.stage.ended = false) (goes : ¬w.Waits t g)
    (syscall : ∀ parsed len, w.stage = .lockSyscall parsed len → g.syscall = none)
    (logfile : ∀ parsed newfd sum, w.stage = .lockLogfile parsed newfd sum → g.logfile = none) :
    (w.work t fd 0 g).isSome = true := by
  have asked := orderly.asked w rfl
  unfold Waits at goes
  cases stage : w.stage with
  | readline call i =>
    rw [stage] at goes
    have file : w.file g call.newfd call.side = _ :=
      orderly.owns.file stage rfl (by cases call <;> simp [Stage.newfd, Line.side, Line.newfd])
    obtain ⟨⟨got, stream⟩, reads⟩ := Option.isSome_iff_exists.mp (call_isSome.mpr goes)
    simp only [work, stage, file, reads, Option.bind_eq_bind, Option.bind_some]
    split <;> rfl
  | writebuf call left =>
    rw [stage] at goes
    have file : w.file g (some call.relay.newfd) call.relay.target = _ :=
      orderly.owns.file stage rfl fun _ => Option.some_ne_none _
    obtain ⟨⟨round, stream⟩, writes⟩ := Option.isSome_iff_exists.mp (round_isSome.mpr goes)
    simp only [work, stage, file, writes, Option.bind_eq_bind, Option.bind_some]
    split <;> rfl
  | relayContent r content i j =>
    rw [stage] at goes
    have file : w.file g (some r.newfd) r.source = _ :=
      orderly.owns.file stage rfl fun _ => Option.some_ne_none _
    simp only [work, stage]
    split
    · rfl
    · next more =>
      split
      · rfl
      · next room =>
        obtain ⟨⟨got, stream⟩, reads⟩ :=
          Option.isSome_iff_exists.mp (call_isSome.mpr fun silent => goes ⟨more, room, silent⟩)
        simp only [file, reads, Option.bind_eq_bind, Option.bind_some]
        split <;> rfl
  | lockSyscall parsed len => simp [work, stage, syscall parsed len stage]
  | copy parsed len =>
    rw [stage] at asked
    have known : g.hostent ≠ none := fun none => asked.1 (asked.2.symm.trans none)
    simpa [work, stage] using Option.isSome_iff_ne_none.mpr known
  | socket parsed len address =>
    simp only [work, stage, fresh]
    split <;> rfl
  | connect parsed len address newfd =>
    have server := orderly.owns.newfd (show w.stage.newfd = some newfd by rw [stage]; rfl)
    simp only [work, stage, server, Option.bind_eq_bind, Option.bind_some]
    split <;> rfl
  | lockLogfile parsed newfd sum => simp [work, stage, logfile parsed newfd sum stage]
  | format parsed newfd sum =>
    simp only [work, stage]
    split <;> rfl
  | done =>
    rw [stage] at running
    cases running
  | _ => simp [work, stage]

theorem Tabled.fresh (tabled : Tabled opened g) : ∃ fd, g.table fd = none := by
  obtain ⟨fd, free⟩ := tabled.finite.exists_notMem
  exact ⟨fd, not_not.mp free⟩

theorem Tabled.openFile {file : File} (tabled : Tabled opened g) (fresh : g.table fd = none) (other : .main ≠ file) :
    Tabled opened (g.openFile fd file) where
  main fd' := (openFile_table_of_ne fresh other).trans (tabled.main fd')
  finite := by
    refine (tabled.finite.insert fd).subset fun fd' here => ?_
    rcases eq_or_ne fd' fd with rfl | ne
    · exact Set.mem_insert ..
    · exact Set.mem_insert_of_mem _ (by simpa [Shared.openFile, ne] using here)

theorem Tabled.close {file : File} (tabled : Tabled opened g) (here : g.table fd = some file) (other : .main ≠ file) :
    Tabled opened (g.close fd) where
  main fd' := (close_table_of_ne here other).trans (tabled.main fd')
  finite := by
    refine tabled.finite.subset fun fd' here => ?_
    rcases eq_or_ne fd' fd with rfl | ne
    · exact absurd (Function.update_self ..) here
    · simpa [Shared.close, ne] using here

theorem tabled_keeps {a : Act} {own own' : Option Worker} (owns : Owns t own g) (tabled : Tabled opened g)
    (next : act t a own g = some (own', g')) : Tabled opened g' := by
  obtain ⟨-, ⟨fd, session, created, rfl, rfl, rfl, fresh, rfl, rfl⟩ | ⟨fd, through, w, w', rfl, rfl, rfl, moves⟩ |
    ⟨side, event, rfl, -, rfl, rfl⟩⟩ := act_cases next
  · have opened := tabled.openFile fresh (show File.main ≠ .socket .client g.accepted from nofun)
    exact ⟨opened.main, opened.finite⟩
  · cases moves with
    | socket stage opens fresh => exact tabled.openFile fresh nofun
    | @closeServer newfd stage =>
      exact tabled.close (owns.newfd (show w.stage.newfd = some newfd by rw [stage]; rfl)) nofun
    | closeClient stage => exact tabled.close (owns.sockfd (by rw [stage]; rfl)) nofun
    | _ => exact ⟨tabled.main, tabled.finite⟩
  · exact ⟨tabled.main, tabled.finite⟩

theorem tabled_outline : Outline act Orderly fun _ _ g => Tabled opened g where
  keeps orderly tabled next := tabled_keeps orderly.owns tabled next
  stable _ orderly _ tabled _ next := tabled_keeps orderly.owns tabled next

/-- What the steps of all threads keep. -/
abbrev Process.Kept (opened : Finset Nat) (s : Process) : Prop :=
  s.All fun t own g => Orderly t own g ∧ Tabled opened g

theorem kept_outline : Outline act (fun _ _ _ => True) fun t own g => Orderly t own g ∧ Tabled opened g :=
  orderly_outline.and (tabled_outline.weaken fun _ _ _ known => known.2)

theorem kept_start {client : Sockaddr} {size : Int} : (Process.start opened client size).Kept opened := by
  refine fun t => ⟨orderly_start t, ⟨fun fd => ?_, opened.finite_toSet.subset fun fd here => ?_⟩⟩
  · simp [Process.start]
  · by_contra closed
    exact here (if_neg closed)

theorem kept_step {e : Nat × Act} (kept : s.Kept opened) (next : s.step e = some s') : s'.Kept opened :=
  kept_outline.all (fun _ => trivial) kept next

theorem Process.Kept.orderly (kept : s.Kept opened) (own : s.own t = some w) : Orderly t (some w) s.shared :=
  own ▸ (kept t).1

theorem step_work (runs : s.shared.crashed = none) (own : s.own t = some w) :
    s.step (t, .work fd through) =
      (w.work t fd through s.shared).map fun next => ⟨Function.update s.own t (some next.1), next.2⟩ := by
  rw [Process.step, Threads.step, own, act, if_pos runs]
  exact Option.map_map ..

/-- A thread that holds a mutex has a step. -/
theorem inside_progress (orderly : Orderly t (some w) g) (fresh : g.table fd = none)
    (inside : w.stage.inSyscall = true ∨ w.stage.inLogfile = true) : (w.work t fd 0 g).isSome = true := by
  refine w.work_progress orderly fresh ?_ ?_ (fun parsed len stage => ?_) fun parsed newfd sum stage => ?_
  · cases stage : w.stage with
    | done =>
      rw [stage] at inside
      rcases inside with inside | inside <;> cases inside
    | _ => rfl
  · intro waits
    unfold Worker.Waits at waits
    cases stage : w.stage with
    | readline | writebuf | relayContent =>
      rw [stage] at inside
      rcases inside with inside | inside <;> cases inside
    | _ =>
      rw [stage] at waits
      exact waits
  · rw [stage] at inside
    rcases inside with inside | inside <;> cases inside
  · rw [stage] at inside
    rcases inside with inside | inside <;> cases inside

/-- When no thread has a step both mutexes are free: their holder would have one. -/
theorem stuck_free (kept : s.Kept opened) (runs : s.shared.crashed = none)
    (stuck : ∀ t fd through, s.step (t, .work fd through) = none) :
    s.shared.syscall = none ∧ s.shared.logfile = none := by
  obtain ⟨fd, fresh⟩ := (kept 0).2.fresh
  have outside : ∀ t w, s.own t = some w → ¬(w.stage.inSyscall = true ∨ w.stage.inLogfile = true) := by
    intro t w own inside
    have next := Option.map_eq_none_iff.mp ((step_work runs own).symm.trans (stuck t fd 0))
    have some := inside_progress (kept.orderly own) fresh inside
    rw [next] at some
    cases some
  refine ⟨Option.eq_none_iff_forall_ne_some.mpr fun t holder => ?_,
    Option.eq_none_iff_forall_ne_some.mpr fun t holder => ?_⟩
  · obtain ⟨w, own, inside⟩ := (kept t).1.syscall.mpr holder
    exact outside t w own (.inl inside)
  · obtain ⟨w, own, inside⟩ := (kept t).1.logfile.mpr holder
    exact outside t w own (.inr inside)

/-- The threads never block each other for ever: when none of them has a step, each has ended or waits for its peers. -/
theorem stuck_waits (kept : s.Kept opened) (runs : s.shared.crashed = none)
    (stuck : ∀ t fd through, s.step (t, .work fd through) = none) (own : s.own t = some w) :
    w.stage = .done ∨ w.Waits t s.shared := by
  obtain ⟨fd, fresh⟩ := (kept t).2.fresh
  obtain ⟨syscall, logfile⟩ := stuck_free kept runs stuck
  by_cases waits : w.Waits t s.shared
  · exact .inr waits
  · refine .inl (done_of_ended (Bool.eq_true_of_not_eq_false fun running => ?_))
    have next := Option.map_eq_none_iff.mp ((step_work runs own).symm.trans (stuck t fd 0))
    have some := w.work_progress (kept.orderly own) fresh running waits (fun _ _ _ => syscall) fun _ _ _ _ => logfile
    rw [next] at some
    cases some

/-- A thread that waits for a peer has no step. -/
theorem Worker.Waits.stuck (waits : w.Waits t g) (owns : Owns t (some w) g) : w.work t fd through g = none := by
  unfold Worker.Waits at waits
  cases stage : w.stage with
  | readline call i =>
    rw [stage] at waits
    have file : w.file g call.newfd call.side = _ :=
      owns.file stage rfl (by cases call <;> simp [Stage.newfd, Line.side, Line.newfd])
    have blocks := Option.not_isSome_iff_eq_none.mp fun returns => call_isSome.mp returns waits
    simp only [Worker.work, stage, file, blocks, Option.bind_eq_bind, Option.bind_some, Option.bind_none]
  | writebuf call left =>
    rw [stage] at waits
    have file : w.file g (some call.relay.newfd) call.relay.target = _ :=
      owns.file stage rfl fun _ => Option.some_ne_none _
    have blocks := Option.not_isSome_iff_eq_none.mp fun returns => round_isSome.mp returns waits
    simp only [Worker.work, stage, file, blocks, Option.bind_eq_bind, Option.bind_some, Option.bind_none]
  | relayContent r content i j =>
    rw [stage] at waits
    obtain ⟨goes, room, silent⟩ := waits
    have file : w.file g (some r.newfd) r.source = _ := owns.file stage rfl fun _ => Option.some_ne_none _
    have blocks := Option.not_isSome_iff_eq_none.mp fun returns => call_isSome.mp returns silent
    simp only [Worker.work, stage, if_neg goes, if_neg room, file, blocks, Option.bind_eq_bind, Option.bind_some,
      Option.bind_none]
  | _ =>
    rw [stage] at waits
    exact waits.elim

/-- A peer can always let a thread that waits for it go on, by the end of its side or by a call of `write`. -/
theorem Worker.Waits.answered (waits : w.Waits t g) :
    ∃ side event, (Act.peer side event).Closing ∧ ¬w.Waits t (g.peer t side event) := by
  have closed : ∀ side, ((g.peer t side .closes).streams (.socket side t)).closed = true := fun side => by
    unfold Shared.peer
    rw [streams_self]
    rfl
  unfold Worker.Waits at waits ⊢
  cases stage : w.stage with
  | readline call i =>
    exact ⟨call.side, .closes, trivial, fun still => Bool.false_ne_true (still.2.symm.trans (closed _))⟩
  | relayContent r content i j =>
    exact ⟨r.source, .closes, trivial, fun still => Bool.false_ne_true (still.2.2.2.symm.trans (closed _))⟩
  | writebuf call left =>
    refine ⟨call.relay.target, .takes [.upTo 0], trivial, fun still => ?_⟩
    have taken := still.2
    unfold Shared.peer at taken
    rw [streams_self] at taken
    exact absurd taken (List.append_ne_nil_of_right_ne_nil _ (List.cons_ne_nil _ _))
  | _ =>
    rw [stage] at waits
    exact waits.elim

theorem Act.Closing.paid {a : Act} (closing : a.Closing) : a.pays = 0 := by
  cases a with
  | accept => exact closing.elim
  | work => rfl
  | peer side event =>
    cases event with
    | sends events => exact closing.elim
    | closes | takes outcomes => rfl

end Progress

section Runs
variable {opened : Finset Nat} {client : Sockaddr} {size : Int} {acts : List (Nat × Act)} {s s' : Process}

theorem kept (run : exec Process.step (.start opened client size) acts = some s) : s.Kept opened :=
  (kept_outline.always kept_start acts).last s run

/-- Before the end a thread can make a step, or can do so once the peer that it waits for has answered. -/
theorem lower (kept : s.Kept opened) (running : ¬s.Ended) :
    ∃ acts s', (∀ e ∈ acts, e.2.Closing) ∧ exec Process.step s acts = some s' ∧ s'.Kept opened ∧ s'.rank < s.rank := by
  obtain ⟨runs, unended⟩ := not_or.mp running
  have goes : ∀ {s : Process}, s.Kept opened → ¬(∀ t fd through, s.step (t, .work fd through) = none) →
      ∃ e s', e.2.Closing ∧ s.step e = some s' ∧ s'.Kept opened ∧ s'.rank < s.rank := by
    intro s kept free
    simp only [not_forall] at free
    obtain ⟨t, fd, through, some⟩ := free
    obtain ⟨s', next⟩ := Option.ne_none_iff_exists'.mp some
    exact ⟨(t, .work fd through), s', trivial, next, kept_step kept next, rank_step (fun t => (kept t).1) next⟩
  by_cases stuck : ∀ t fd through, s.step (t, .work fd through) = none
  · simp only [not_forall] at unended
    obtain ⟨t, w, own, unended⟩ := unended
    have runs := not_not.mp runs
    have waits := (stuck_waits kept runs stuck own).resolve_left unended
    obtain ⟨side, event, closing, answered⟩ := waits.answered
    have next : s.step (t, .peer side event) =
        some ⟨Function.update s.own t (some w), s.shared.peer t side event⟩ := by
      rw [Process.step, Threads.step, own, act, if_pos runs]
      simp only [if_pos (kept.orderly own).owns.accepted, Option.map_some]
    have kept' := kept_step kept next
    have same : (Function.update s.own t (some w)) t = some w := Function.update_self ..
    obtain ⟨e, s', closing', next', kept'', less⟩ := goes kept' fun stuck' =>
      (stuck_waits kept' runs stuck' same).elim unended answered
    have free := rank_step (fun t => (kept t).1) next
    rw [closing.paid] at free
    refine ⟨[(t, .peer side event), e], s', ?_, ?_, kept'', Nat.lt_of_lt_of_le less free⟩
    · simp only [List.forall_mem_cons]
      exact ⟨closing, closing', fun _ mem => absurd mem List.not_mem_nil⟩
    · simp only [exec, next, next', Option.bind_some]
  · obtain ⟨e, s', closing, next, kept', less⟩ := goes kept stuck
    refine ⟨[e], s', List.forall_mem_singleton.mpr closing, ?_, kept', less⟩
    simp only [exec, next, Option.bind_some]

theorem two_accepted : twoEnd.shared.accepted = 2 := by decide +kernel

theorem two_done : ∀ t, ∀ w ∈ twoEnd.own t, w.stage = .done := by
  intro t w own
  have known := ((kept two_run).orderly own).owns.accepted
  rw [two_accepted] at known
  obtain rfl | rfl : t = 0 ∨ t = 1 := by omega
  · rw [Option.some.inj (own.symm.trans first_own)]
    exact done_of_ended (by decide +kernel)
  · rw [Option.some.inj (own.symm.trans second_own)]
    exact second_done

/-- A connection whose client sends nothing. -/
def silentActs : List (Nat × Act) := [(0, .accept 3 visitor true), (0, .work 5 0)]

theorem silent_waits : ∃ s, exec Process.step twoStart silentActs = some s ∧ s.shared.syscall = none ∧
    s.shared.logfile = none ∧ ∀ t w, s.own t = some w → w.Waits t s.shared := by
  refine ⟨_, rfl, rfl, rfl, fun t w own => ?_⟩
  by_cases first : t = 0
  · subst first
    cases own
    exact ⟨rfl, rfl⟩
  · have missing : (Function.update (Function.update (fun _ => none) 0 _) 0 _ : Nat → Option Worker) t = some w := own
    rw [Function.update_of_ne first, Function.update_of_ne first] at missing
    cases missing

/-- In every state the descriptors of `main` are open, and a descriptor that stands for a socket belongs to the one
thread that has not closed it yet, or `main` has left it open when it could not create the thread. When all threads
have ended nothing else is open and both mutexes are free. -/
theorem descriptors_owned (run : exec Process.step (.start opened client size) acts = some s) :
    (∀ fd, s.shared.table fd = some .main ↔ fd ∈ opened) ∧
    (∀ t w, s.own t = some w → ∀ side fd, s.shared.table fd = some (.socket side t) ↔ w.descriptor side = some fd) ∧
    (∀ t, s.own t = none → ∀ side fd, s.shared.table fd = some (.socket side t) → side = .client) ∧
    ((∀ t, ∀ w ∈ s.own t, w.stage = .done) → s.shared.syscall = none ∧ s.shared.logfile = none ∧
      ∀ fd file, s.shared.table fd = some file → file = .main ∨ ∃ t, s.own t = none ∧ file = .socket .client t) := by
  have known := kept run
  have leaked : ∀ t, s.own t = none → ∀ side fd, s.shared.table fd = some (.socket side t) → side = .client := by
    intro t own side fd here
    obtain ⟨leak, files, -⟩ := (known t).1.owns
    have there := (files fd side).mp here
    rw [own] at there
    cases side with
    | client => rfl
    | server => cases there
  refine ⟨(known 0).2.main, fun t w own side fd => (known.orderly own).owns.iff, leaked, fun ended => ?_⟩
  refine ⟨Option.eq_none_iff_forall_ne_some.mpr fun t holder => ?_,
    Option.eq_none_iff_forall_ne_some.mpr fun t holder => ?_, fun fd file here => ?_⟩
  · obtain ⟨w, own, inside⟩ := (known t).1.syscall.mpr holder
    rw [ended t w own] at inside
    cases inside
  · obtain ⟨w, own, inside⟩ := (known t).1.logfile.mpr holder
    rw [ended t w own] at inside
    cases inside
  · cases file with
    | main => exact .inl rfl
    | socket side t =>
      cases own : s.own t with
      | none => exact .inr ⟨t, own, by rw [leaked t own side fd here]⟩
      | some w =>
        have there := (known.orderly own).owns.iff.mp here
        rw [Worker.descriptor.eq_def, ended t w own] at there
        cases side <;> cases there

theorem descriptors_owned_two : (∀ fd, twoEnd.shared.table fd = some .main ↔ fd ∈ ({0, 1, 2} : Finset Nat)) ∧
    ∀ fd file, twoEnd.shared.table fd = some file → file = .main := by
  obtain ⟨main, -, -, ended⟩ := descriptors_owned two_run
  refine ⟨main, fun fd file here => ((ended two_done).2.2 fd file here).resolve_right ?_⟩
  rintro ⟨t, missing, rfl⟩
  obtain ⟨leak, files, known⟩ := (kept two_run t).1.owns
  have leaked := (files fd .client).mp here
  rw [missing] at leaked known
  have accepted := known.mpr (.inr (Option.ne_none_iff_exists'.mpr ⟨fd, leaked⟩))
  rw [two_accepted] at accepted
  obtain rfl | rfl : t = 0 ∨ t = 1 := by omega
  · cases missing.symm.trans first_own
  · cases missing.symm.trans second_own

end Runs

end Splab.Proxy
