import Splab.Proxy.Isolation

namespace Splab.Proxy

/-- The address that the thread connects its socket to. -/
def Session.dials (v : Session) (p : Peers) : Option (UInt32 × Nat) :=
  if v.detaches = true ∧ v.reaches p = true then v.target p else none

/-- The address that the socket of a thread is connected to at its stage. -/
def Stage.Dials (stage : Stage) (v : Session) (p : Peers) (remote : Option (UInt32 × Nat)) : Prop :=
  match stage with
  | .detach | .readline .request _ | .lockSyscall _ _ | .resolve _ _ | .copy _ _ | .unlockSyscall _ _ _
  | .socket _ _ _ | .connect _ _ _ _ => remote = none
  | _ => remote = v.dials p

/-- The server socket of a thread is connected as its stage says. -/
def Dials (t : Nat) (own : Option Worker) (g : Shared) : Prop :=
  (own = none → g.remote (.socket .server t) = none) ∧ ∀ w ∈ own, ∀ later, g.Allows t later →
    w.stage.Dials w.session (g.peers t later) (g.remote (.socket .server t))

section Steps
variable {w w' : Worker} {t u fd through : Nat} {g g' : Shared} {own own' other : Option Worker} {a : Act} {v : Session}
  {p later : Peers} {next : Stage} {newfd : Option Nat} {address : Option (UInt32 × Nat)}

theorem Stage.Begins.dials (begins : next.Begins newfd) (opened : newfd ≠ none) (dials : address = v.dials p) :
    next.Dials v p address := by
  cases begins with
  | readline call =>
    cases call with
    | request => exact absurd rfl opened
    | header | reply => exact dials
  | lockSyscall | closeClient => exact absurd rfl opened
  | writebuf | relayContent | lockLogfile | closeServer => exact dials

theorem dials_of_unreached (unreached : v.reaches p = false) : v.dials p = none :=
  if_neg fun both => Bool.false_ne_true (unreached.symm.trans both.2)

theorem Worker.Moves.dials (moves : w.Moves t fd through g w' g') (owns : Owns t (some w) g)
    (asked : w.stage.Asked w.session g) (size : w.buf.length = maxLine) (inside : w.stage.Inside)
    (allows : g.Allows t later) (here : w.stage.At w.session (g.peers t later) (g.conn t w later))
    (dials : w.stage.Dials w.session (g.peers t later) (g.remote (.socket .server t))) :
    w'.stage.Dials w'.session (g'.peers t later) (g'.remote (.socket .server t)) := by
  rw [moves.peers owns allows, moves.session]
  cases moves with
  | detach stage | lockSyscall stage | resolve stage | resolveFails stage | copy stage | unlockSyscall stage
  | socket stage =>
    rw [stage] at dials
    exact dials
  | noDetach stage fails =>
    rw [stage] at dials
    exact dials.trans (if_neg fun both => Bool.false_ne_true (fails.symm.trans both.1)).symm
  | @read call i file got stream buf stage =>
    rw [stage] at dials
    cases call <;> exact dials
  | @line call i file got stream buf len next stage atFile reads round after =>
    rw [stage] at here dials inside
    cases call with
    | request =>
      cases owns.behind stage rfl atFile
      obtain ⟨alone, -⟩ := @call_alone w _ _ _ _ _ _ reads allows
      have last := (readline_last inside size alone round).symm.trans here.2
      change next.Dials w.session _ _
      rcases received_ok (s := (Shared.conn _ t w later).withBuf buf) after with ⟨parsed, len, rfl, -⟩ | ⟨rfl, received⟩
      · exact dials
      · have unreached : w.session.reaches (g.peers t later) = false := by
          rw [Session.reaches, Session.target, Session.request, last.symm.trans received]
          rfl
        exact dials.trans (dials_of_unreached unreached).symm
    | header | reply => exact (Line.begins after).dials (Option.some_ne_none _) dials
  | written stage _ _ after =>
    rw [stage] at dials
    exact (Write.begins after).dials (Option.some_ne_none _) dials
  | failed stage =>
    rw [stage] at dials
    exact Relay.begins_content.dials (Option.some_ne_none _) dials
  | noHost stage =>
    rw [stage] at here asked dials
    have unreached : w.session.reaches (g.peers t later) = false := by
      rw [Session.reaches, target_of_receive here.2 asked]
      rfl
    exact dials.trans (dials_of_unreached unreached).symm
  | socketFails stage fails =>
    rw [stage] at dials
    have unreached : w.session.reaches (g.peers t later) = false := by
      rw [Session.reaches, fails, Bool.and_false, Bool.false_and]
    exact dials.trans (dials_of_unreached unreached).symm
  | connectFails stage fails =>
    rw [stage] at dials
    have unreached : w.session.reaches (g.peers t later) = false := by
      rw [Session.reaches, fails, Bool.and_false]
    exact dials.trans (dials_of_unreached unreached).symm
  | connect stage atFile connects =>
    rw [stage] at here asked
    have file := Option.some.inj (atFile.symm.trans (owns.newfd (by rw [stage]; rfl)))
    subst file
    have target := target_of_receive here.2.1 asked
    have reaches : w.session.reaches (g.peers t later) = true := by
      rw [Session.reaches, target, here.2.2, connects]
      rfl
    exact (Function.update_self ..).trans (target.symm.trans (if_pos ⟨here.1, reaches⟩).symm)
  | lineCrash | writeCrash | formatCrash | killed => exact dials
  | _ =>
    rw [‹w.stage = _›] at dials
    exact dials

theorem Worker.Moves.remote (moves : w.Moves t fd through g w' g') (owns : Owns t (some w) g) (ne : u ≠ t) :
    g'.remote (.socket .server u) = g.remote (.socket .server u) := by
  cases moves with
  | connect stage atFile connects =>
    have file := Option.some.inj (atFile.symm.trans (owns.newfd (by rw [stage]; rfl)))
    subst file
    exact Function.update_of_ne (by simp [ne]) _ _
  | _ => rfl

theorem act_remote (next : act t a own g = some (own', g')) (owns : Owns t own g) (ne : u ≠ t) :
    g'.remote (.socket .server u) = g.remote (.socket .server u) := by
  obtain ⟨-, ⟨fd, session, created, rfl, rfl, rfl, -, rfl, rfl⟩ | ⟨fd, through, w, w', rfl, rfl, rfl, moves⟩ |
    ⟨side', event, rfl, known, rfl, rfl⟩⟩ := act_cases next
  · rfl
  · exact moves.remote owns ne
  · rfl

theorem dials_outline :
    Outline act (fun t own g => (Orderly t own g ∧ Sized t own g) ∧ Follows t own g) Dials where
  keeps known dials next := by
    have runs := (act_crashed next).1
    obtain ⟨-, ⟨fd, session, created, rfl, rfl, rfl, -, rfl, rfl⟩ | ⟨fd, through, w, w', rfl, rfl, rfl, moves⟩ |
      ⟨side, event, rfl, -, rfl, rfl⟩⟩ := act_cases next
    · refine ⟨fun _ => dials.1 rfl, fun w mem later _ => ?_⟩
      cases created with
      | false => exact absurd mem (Option.not_mem_none w)
      | true =>
        cases mem
        exact dials.1 rfl
    · refine ⟨fun none => absurd none (Option.some_ne_none w'), ?_⟩
      rintro _ ⟨⟩ later allows
      obtain ⟨size, inside⟩ := known.1.2 w rfl
      have before : Shared.Allows _ _ later := fun side closed => allows side ((moves.closed _).trans closed)
      have here := (known.2 w rfl later before).runs fun cause crash => by cases runs.symm.trans crash
      exact moves.dials known.1.1.owns (known.1.1.asked w rfl) size inside before here (dials.2 w rfl later before)
    · refine ⟨dials.1, fun w mem later allows => ?_⟩
      rw [(@peer_later w _ _ _ later event).1]
      exact dials.2 w mem _ (peer_allows allows)
  stable ne known _ _ there next := by
    have streams := act_streams next known.1.1.owns ne
    have remote := act_remote next known.1.1.owns ne
    refine ⟨fun none => remote.trans (there.1 none), fun w mem later allows => ?_⟩
    have before : Shared.Allows _ _ later := fun side closed =>
      allows side ((congrArg Stream.closed (streams side)).trans closed)
    rw [remote]
    simpa only [Shared.peers, streams] using there.2 w mem later before

end Steps

section Runs
variable {opened : Finset Nat} {client : Sockaddr} {size : Int} {acts : List (Nat × Act)} {s : Process} {t : Nat}
  {w : Worker} {later : Peers}

theorem dials (run : exec Process.step (.start opened client size) acts = some s) : s.All Dials := by
  have outline := (orderly_outline.and (sized_outline.weaken fun _ _ _ _ => trivial)).and
    (follows_outline.weaken fun _ _ _ known => known.2)
  have all := outline.and (dials_outline.weaken fun _ _ _ known => known.2)
  refine fun t => ((all.always (fun t => ?_) acts).last s run t).2
  exact ⟨⟨⟨orderly_start t, fun w mem => absurd mem (Option.not_mem_none w)⟩,
    fun w mem => absurd mem (Option.not_mem_none w)⟩, fun _ => rfl, fun w mem => absurd mem (Option.not_mem_none w)⟩

/-- However the calls of `gethostbyname` of the threads are interleaved, a thread connects to the address that was
the answer for the name in its own request line, on the port of this line, or to none. -/
theorem dials_own_host (run : exec Process.step (.start opened client size) acts = some s) (own : s.own t = some w)
    (allows : s.shared.Allows t later) :
    (s.shared.remote (.socket .server t) = none ∨
      s.shared.remote (.socket .server t) = w.session.target (s.shared.peers t later)) ∧
    (w.stage = .done → s.shared.remote (.socket .server t) = w.session.dials (s.shared.peers t later)) := by
  have known := (dials run t).2 w own later allows
  have target : w.session.dials (s.shared.peers t later) = none ∨
      w.session.dials (s.shared.peers t later) = w.session.target (s.shared.peers t later) := by
    unfold Session.dials
    split
    · exact .inr rfl
    · exact .inl rfl
  refine ⟨?_, fun done => ?_⟩
  · cases stage : w.stage with
    | detach | lockSyscall | resolve | copy | unlockSyscall | socket | connect =>
      rw [stage] at known
      exact .inl known
    | readline call i =>
      rw [stage] at known
      cases call with
      | request => exact .inl known
      | header | reply => exact known ▸ target
    | _ =>
      rw [stage] at known
      exact known ▸ target
  · rw [done] at known
    exact known

/-- Two threads whose calls are interleaved have asked for different hosts. -/
theorem dials_own_host_two : firstWorker.session.target (twoEnd.shared.peers 0 .nothing) = some (7, 80) ∧
    secondWorker.session.target (twoEnd.shared.peers 1 .nothing) = some (8, 81) := by
  have remote : twoEnd.shared.remote (.socket .server 0) = some (7, 80) ∧
      twoEnd.shared.remote (.socket .server 1) = some (8, 81) := by decide +kernel
  have allows : ∀ t, twoEnd.shared.Allows t .nothing := fun _ _ _ => rfl
  have first := (dials_own_host two_run first_own (allows 0)).1
  have second := (dials_own_host two_run second_own (allows 1)).1
  rw [remote.1] at first
  rw [remote.2] at second
  exact ⟨(first.resolve_left nofun).symm, (second.resolve_left nofun).symm⟩

end Runs

end Splab.Proxy
