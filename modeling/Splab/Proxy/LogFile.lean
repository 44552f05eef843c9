import Splab.Proxy.Isolation
import Splab.Proxy.LoggedSize
import Splab.Proxy.Leftovers

namespace Splab.Proxy

/-- The line that a thread has written to the log. -/
def Worker.line (w : Worker) : Option (List UInt8) :=
  w.log.map fun entry => cstring (formatLogEntry w.session.now w.client entry.1 entry.2) ++ [10]

/-- Whether the entry has been written, if there is one. -/
def Stage.logged : Stage → Bool
  | .unlockLogfile _ | .closeServer _ | .closeClient | .done => true
  | _ => false

/-- A thread has nothing in the log before it has printed its entry, and then it has the entry in its array. -/
structure Worker.Formatted (w : Worker) : Prop where
  unlogged : w.stage.logged = false → w.log = none
  entry : ∀ {parsed newfd sum}, w.stage = .print parsed newfd sum ∨ w.stage = .append parsed newfd sum →
    cstring w.buf = cstring (formatLogEntry w.session.now w.client (cstring parsed.uri) sum)

def Formatted (_ : Nat) (own : Option Worker) (_ : Shared) : Prop := ∀ w ∈ own, w.Formatted

/-- The standard output is the log, and for a thread between the two lines the log and its own line. -/
def Stage.Prints (stage : Stage) (buf : List UInt8) (g : Shared) : Prop :=
  match stage with
  | .localtime _ _ _ | .format _ _ _ | .print _ _ _ | .unlockLogfile _ => g.stdout.printed = g.log.printed
  | .append _ _ _ => g.stdout.printed = g.log.printed ++ (cstring buf ++ [10])
  | _ => True

def Prints (_ : Nat) (own : Option Worker) (g : Shared) : Prop :=
  (g.logfile = none → g.stdout.printed = g.log.printed) ∧ ∀ w ∈ own, w.stage.Prints w.buf g

section Steps
variable {w w' : Worker} {t u fd through : Nat} {g g' : Shared} {own own' other : Option Worker} {a : Act}

theorem print_printed {f : Stdio} {text : List UInt8} : (f.print text through).printed = f.printed ++ text := by
  simp [Stdio.printed, Stdio.print]

/-- Only one step of a thread writes to the log. -/
theorem Worker.Moves.log (moves : w.Moves t fd through g w' g') :
    w'.log = w.log ∧ g'.log = g.log ∨ ∃ parsed newfd sum, w.stage = .append parsed newfd sum ∧
      w'.stage = .unlockLogfile newfd ∧ w'.log = some (cstring parsed.uri, sum) ∧
      g'.log = g.log.print (cstring w.buf ++ [10]) through := by
  cases moves with
  | append stage => exact .inr ⟨_, _, _, stage, rfl, rfl, rfl⟩
  | _ => exact .inl ⟨rfl, rfl⟩

theorem Worker.Moves.logged (moves : w.Moves t fd through g w' g') (unlogged : w'.stage.logged = false) :
    w.stage.logged = false := by
  cases moves with
  | lineCrash | writeCrash | formatCrash | killed => exact unlogged
  | append | unlockLogfile | closeServer | closeClient => cases unlogged
  | _ => rw [‹w.stage = _›]; rfl

theorem entry_inside {stage : Stage} {parsed : Parsed} {newfd : Nat} {sum : Int}
    (there : stage = .print parsed newfd sum ∨ stage = .append parsed newfd sum) : stage.inLogfile = true := by
  rcases there with rfl | rfl <;> rfl

theorem Worker.Moves.formatted (moves : w.Moves t fd through g w' g') (asked : w.stage.Asked w.session g)
    (formatted : w.Formatted) : w'.Formatted where
  unlogged unlogged := by
    rcases moves.log with same | ⟨_, _, _, -, stage, -⟩
    · exact same.1.trans (formatted.unlogged (moves.logged unlogged))
    · rw [stage] at unlogged
      cases unlogged
  entry there := by
    cases moves with
    | format stage fits =>
      rw [stage] at asked
      rcases there with here | here <;> cases here
      exact cstring_overwrite.trans (congrArg (fun time => cstring (formatLogEntry time _ _ _)) asked)
    | print stage =>
      rcases there with here | here <;> cases here
      exact formatted.entry (.inl stage)
    | lineCrash stage | writeCrash stage | killed stage =>
      change w.stage = _ ∨ w.stage = _ at there
      rw [stage] at there
      rcases there with here | here <;> cases here
    | formatCrash => exact formatted.entry there
    | line _ _ _ _ after => exact absurd (entry_inside there) (Bool.eq_false_iff.mp (Line.begins after).idle.free.2)
    | written _ _ _ after => exact absurd (entry_inside there) (Bool.eq_false_iff.mp (Write.begins after).idle.free.2)
    | failed => exact absurd (entry_inside there) (Bool.eq_false_iff.mp Relay.begins_content.idle.free.2)
    | _ => rcases there with here | here <;> cases here

theorem formatted_outline : Outline act Orderly Formatted where
  keeps orderly formatted next := by
    obtain ⟨-, ⟨fd, session, created, rfl, rfl, rfl, -, rfl, rfl⟩ | ⟨fd, through, w, w', rfl, rfl, rfl, moves⟩ |
      ⟨side, event, rfl, known, rfl, rfl⟩⟩ := act_cases next
    · rintro w mem
      cases created with
      | false => exact absurd mem (Option.not_mem_none w)
      | true =>
        cases mem
        exact ⟨fun _ => rfl, fun there => by rcases there with here | here <;> cases here⟩
    · rintro _ ⟨⟩
      exact moves.formatted (orderly.asked w rfl) (formatted w rfl)
    · exact formatted
  stable _ _ _ _ there _ := there

theorem Stage.Idle.prints {stage : Stage} {newfd : Option Nat} {buf : List UInt8} (idle : stage.Idle newfd) :
    stage.Prints buf g := by
  cases idle <;> trivial

theorem Worker.Moves.prints (moves : w.Moves t fd through g w' g')
    (free : g.logfile = none → g.stdout.printed = g.log.printed)
    (inside : w.stage.inLogfile = true ↔ g.logfile = some t) (prints : w.stage.Prints w.buf g) :
    (g'.logfile = none → g'.stdout.printed = g'.log.printed) ∧ w'.stage.Prints w'.buf g' := by
  have holds : w.stage.inLogfile = true → g.logfile ≠ none := by
    intro here none
    cases none.symm.trans (inside.mp here)
  cases moves with
  | lockLogfile stage free' => exact ⟨nofun, free free'⟩
  | localtime stage | format stage =>
    rw [stage] at prints
    exact ⟨free, prints⟩
  | print stage =>
    rw [stage] at prints holds
    refine ⟨fun none => absurd none (holds rfl), print_printed.trans ?_⟩
    exact congrArg (· ++ (cstring w.buf ++ [10])) prints
  | append stage =>
    rw [stage] at prints holds
    exact ⟨fun none => absurd none (holds rfl), Eq.trans prints print_printed.symm⟩
  | unlockLogfile stage =>
    rw [stage] at prints
    exact ⟨fun _ => prints, trivial⟩
  | lineCrash stage | writeCrash stage | killed stage =>
    refine ⟨free, ?_⟩
    change w.stage.Prints _ _
    rw [stage]
    trivial
  | formatCrash => exact ⟨free, prints⟩
  | line _ _ _ _ after => exact ⟨free, (Line.begins after).idle.prints⟩
  | written _ _ _ after => exact ⟨free, (Write.begins after).idle.prints⟩
  | failed => exact ⟨free, Relay.begins_content.idle.prints⟩
  | _ => exact ⟨free, trivial⟩

/-- Only a thread that holds the mutex prints. -/
theorem Worker.Moves.printed (moves : w.Moves t fd through g w' g') (outside : w.stage.inLogfile = false) :
    g'.stdout = g.stdout ∧ g'.log = g.log := by
  cases moves with
  | print stage | append stage =>
    rw [stage] at outside
    cases outside
  | _ => exact ⟨rfl, rfl⟩

theorem act_printed (next : act t a own g = some (own', g')) (outside : ¬logfileLock.Inside own) :
    g'.stdout = g.stdout ∧ g'.log = g.log := by
  obtain ⟨-, ⟨fd, session, created, rfl, rfl, -, -, rfl, rfl⟩ | ⟨fd, through, w, w', rfl, rfl, rfl, moves⟩ |
    ⟨side, event, rfl, known, rfl, rfl⟩⟩ := act_cases next
  · exact ⟨rfl, rfl⟩
  · exact moves.printed (Bool.eq_false_iff.mpr (inside_logfile.not.mp outside))
  · exact ⟨rfl, rfl⟩

theorem prints_keeps (orderly : Orderly t own g) (prints : Prints t own g) (next : act t a own g = some (own', g')) :
    Prints t own' g' := by
  obtain ⟨-, ⟨fd, session, created, rfl, rfl, rfl, -, rfl, rfl⟩ | ⟨fd, through, w, w', rfl, rfl, rfl, moves⟩ |
    ⟨side, event, rfl, known, rfl, rfl⟩⟩ := act_cases next
  · refine ⟨prints.1, fun w mem => ?_⟩
    cases created with
    | false => exact absurd mem (Option.not_mem_none w)
    | true =>
      cases mem
      trivial
  · obtain ⟨free, here⟩ := moves.prints prints.1 (inside_logfile.symm.trans orderly.logfile) (prints.2 w rfl)
    refine ⟨free, ?_⟩
    rintro _ ⟨⟩
    exact here
  · exact prints

theorem prints_outline : Outline act Orderly Prints where
  keeps := prints_keeps
  stable ne orderly orderly' here there next := by
    refine ⟨(prints_keeps orderly here next).1, fun w mem => ?_⟩
    have prints := there.2 w mem
    cases mem
    by_cases inside : w.stage.inLogfile = true
    · have stdout := orderly.logfile.guarded ne orderly'.logfile (inside_logfile.mpr inside)
        fun outside => (act_printed next outside).1
      have log := orderly.logfile.guarded ne orderly'.logfile (inside_logfile.mpr inside)
        fun outside => (act_printed next outside).2
      cases stage : w.stage with
      | localtime | format | print | unlockLogfile | append =>
        rw [stage] at prints
        simp only [Stage.Prints, stdout, log]
        exact prints
      | _ => trivial
    · cases stage : w.stage with
      | localtime | format | print | unlockLogfile | append =>
        rw [stage] at inside
        exact absurd rfl inside
      | _ => trivial

/-- A step that writes to the log writes the line of its thread. -/
theorem act_log (next : act t a own g = some (own', g')) (formatted : Formatted t own g) :
    own'.bind Worker.line = own.bind Worker.line ∧ g'.log.printed = g.log.printed ∨
      own.bind Worker.line = none ∧ ∃ text, own'.bind Worker.line = some text ∧
        g'.log.printed = g.log.printed ++ text := by
  obtain ⟨-, ⟨fd, session, created, rfl, rfl, -, -, rfl, rfl⟩ | ⟨fd, through, w, w', rfl, rfl, rfl, moves⟩ |
    ⟨side, event, rfl, known, rfl, rfl⟩⟩ := act_cases next
  · refine .inl ⟨?_, rfl⟩
    cases created <;> rfl
  · simp only [Option.bind_some]
    rcases moves.log with ⟨log, same⟩ | ⟨parsed, newfd, sum, stage, -, log, longer⟩
    · exact .inl ⟨by rw [Worker.line, Worker.line, log, moves.session, moves.client], congrArg Stdio.printed same⟩
    · have known := formatted w rfl
      refine .inr ⟨?_, _, ?_, (congrArg Stdio.printed longer).trans print_printed⟩
      · rw [Worker.line, known.unlogged (by rw [stage]; rfl)]
        rfl
      · rw [Worker.line, log, moves.session, moves.client, Option.map_some, known.entry (.inr stage)]
  · exact .inl ⟨rfl, rfl⟩

/-- The first call of `accept` stores what fits into the size that it is told, and then the size is known. -/
def Addressed (client : Sockaddr) (size : Int) (t : Nat) (own : Option Worker) (g : Shared) : Prop :=
  (g.accepted = 0 → g.client = client ∧ g.size = size) ∧ (g.accepted ≠ 0 → g.size = 16) ∧
    ∀ w ∈ own, w.client = (if t = 0 then client.store w.session.peer size.toNat else w.session.peer).sinAddr

theorem store_sinAddr {old new : Sockaddr} {len : Nat} (enough : 8 ≤ len) :
    (old.store new len).sinAddr = new.sinAddr := by
  have size := new.size
  have same : (((old.store new len).bytes.drop 4).take 4) = ((new.bytes.drop 4).take 4) := by
    rw [Sockaddr.store, List.drop_append_of_le_length (by rw [List.length_take]; omega), List.drop_take,
      List.take_append_of_le_length (by rw [List.length_take, List.length_drop]; omega), List.take_take,
      Nat.min_eq_left (by omega)]
  rw [Sockaddr.sinAddr, Sockaddr.sinAddr, same]

theorem addressed_outline {client : Sockaddr} {size : Int} :
    Outline act (fun _ _ _ => True) (Addressed client size) where
  keeps _ addressed next := by
    obtain ⟨-, ⟨fd, session, created, rfl, rfl, rfl, -, rfl, rfl⟩ | ⟨fd, through, w, w', rfl, rfl, rfl, moves⟩ |
      ⟨side, event, rfl, known, rfl, rfl⟩⟩ := act_cases next
    · refine ⟨fun none => absurd none (Nat.succ_ne_zero _), fun _ => rfl, fun w mem => ?_⟩
      cases created with
      | false => exact absurd mem (Option.not_mem_none w)
      | true =>
        cases mem
        change (Sockaddr.store _ session.peer _).sinAddr = _
        split
        · next first => rw [(addressed.1 first).1, (addressed.1 first).2]; rfl
        · next more => rw [addressed.2.1 more]; exact store_sinAddr (by decide)
    · obtain ⟨accepted, client, size⟩ := moves.main
      refine ⟨fun none => ?_, fun more => ?_, ?_⟩
      · rw [client, size]
        exact addressed.1 (accepted ▸ none)
      · rw [size]
        exact addressed.2.1 (accepted ▸ more)
      · rintro _ ⟨⟩
        rw [moves.client, moves.session]
        exact addressed.2.2 w rfl
    · exact addressed
  stable ne _ _ here there next := by
    obtain ⟨-, ⟨fd, session, created, rfl, rfl, rfl, -, rfl, rfl⟩ | ⟨fd, through, w, w', rfl, rfl, rfl, moves⟩ |
      ⟨side, event, rfl, known, rfl, rfl⟩⟩ := act_cases next
    · exact ⟨fun none => absurd none (Nat.succ_ne_zero _), fun _ => rfl, there.2.2⟩
    · obtain ⟨accepted, client, size⟩ := moves.main
      refine ⟨fun none => ?_, fun more => ?_, there.2.2⟩
      · rw [client, size]
        exact there.1 (accepted ▸ none)
      · rw [size]
        exact there.2.1 (accepted ▸ more)
    · exact there

end Steps

section Runs
variable {opened : Finset Nat} {client : Sockaddr} {size : Int} {acts : List (Nat × Act)} {s : Process} {t : Nat}
  {w : Worker} {later : Peers}

theorem printing (run : exec Process.step (.start opened client size) acts = some s) :
    (s.All fun t own g => Orderly t own g ∧ Formatted t own g ∧ Prints t own g) ∧
      s.Appended (fun g => g.log.printed) (Option.bind · Worker.line) := by
  have outline : Outline act (fun _ _ _ => True) fun t own g => Orderly t own g ∧ Formatted t own g ∧ Prints t own g :=
    orderly_outline.and ((formatted_outline.and (prints_outline.weaken fun _ _ _ known => known.1)).weaken
      fun _ _ _ known => known.2)
  have start : (Process.start opened client size).All fun t own g =>
      Orderly t own g ∧ Formatted t own g ∧ Prints t own g := by
    refine fun t => ⟨orderly_start t, fun w mem => absurd mem (Option.not_mem_none w), fun _ => rfl,
      fun w mem => absurd mem (Option.not_mem_none w)⟩
  have empty : (Process.start opened client size).Appended (fun g => g.log.printed) (Option.bind · Worker.line) :=
    ⟨[], List.nodup_nil, fun t => iff_of_false List.not_mem_nil (fun some => some rfl), rfl⟩
  refine ((outline.always start acts).and empty fun s e s' known appended next => ?_).last s run
  exact appended.step next fun own shared made => act_log made (known e.1).2.1

theorem addressed (run : exec Process.step (.start opened client size) acts = some s) :
    s.All (Addressed client size) := by
  refine (addressed_outline.always (fun t => ?_) acts).last s run
  exact ⟨fun _ => ⟨rfl, rfl⟩, fun more => absurd rfl more, fun w mem => absurd mem (Option.not_mem_none w)⟩

/-- However the threads are interleaved, what has been printed to the log consists of whole lines, one for each thread
that has printed one, and each of them is the entry of its thread, for its own client, its own URI, its own size and
its own time. The file has a first part of it, which may end inside of a line. The client of the first thread is what
`accept` has stored of its address in `client`. Whenever nobody holds the mutex, what has been printed to the standard
output is the same. -/
theorem log_whole_lines (run : exec Process.step (.start opened client size) acts = some s) :
    (∃ order : List Nat, order.Nodup ∧ (∀ t, t ∈ order ↔ ∃ w, s.own t = some w ∧ w.log ≠ none) ∧
      s.shared.log.file ++ s.shared.log.pending = order.flatMap fun t => ((s.own t).bind Worker.line).getD []) ∧
    (s.shared.logfile = none → s.shared.stdout.printed = s.shared.log.printed) ∧
    ∀ t w, s.own t = some w → (0 < t ∨ 8 ≤ size → w.client = w.session.peer.sinAddr) ∧
      (t = 0 → w.client = (client.store w.session.peer size.toNat).sinAddr) ∧
      (w.stage = .done → (∀ cause, s.shared.crashed ≠ some (t, cause)) → ∀ later, s.shared.Allows t later →
        w.log = (w.session.alone (s.shared.peers t later)).log) := by
  obtain ⟨known, order, nodup, mem, whole⟩ := printing run
  refine ⟨⟨order, nodup, fun t => (mem t).trans ?_, whole⟩, (known 0).2.2.1, fun t w own => ⟨fun stored => ?_,
    fun first => ?_, fun done runs later allows => ?_⟩⟩
  · cases own : s.own t with
    | none => simp
    | some w => simp [Worker.line]
  · rw [(addressed run t).2.2 w own]
    split
    · exact store_sinAddr (by omega)
    · rfl
  · exact ((addressed run t).2.2 w own).trans (congrArg Sockaddr.sinAddr (if_pos first))
  · have here := ((follows run t).2 w own later allows).runs runs
    rw [done] at here
    obtain ⟨buf, alone⟩ := here
    rw [Session.alone, alone]
    rfl

/-- The first thread has logged zero bytes as its client, and the end of the second line is still in the buffer. -/
theorem log_whole_lines_two : twoEnd.shared.stdout.printed = twoEnd.shared.log.printed ∧
    firstWorker.client = 0 ∧ secondWorker.client = secondWorker.session.peer.sinAddr ∧
    (secondWorker.session.alone (twoEnd.shared.peers 1 .nothing)).log = some (ascii "http://b:81", 8) ∧
    twoEnd.shared.log.pending = ascii " 8\n" := by
  have whole := log_whole_lines two_run
  have first := whole.2.2 0 firstWorker first_own
  have second := whole.2.2 1 secondWorker second_own
  have allows : twoEnd.shared.Allows 1 .nothing := fun _ _ => rfl
  have runs : twoEnd.shared.crashed = none := by decide +kernel
  have log := second.2.2 second_done (fun cause crash => by cases runs.symm.trans crash) .nothing allows
  exact ⟨whole.2.1 (by decide +kernel), (first.2.1 rfl).trans (by decide +kernel), second.1 (.inl one_pos),
    log.symm.trans (by decide +kernel), by decide +kernel⟩

end Runs

end Splab.Proxy
