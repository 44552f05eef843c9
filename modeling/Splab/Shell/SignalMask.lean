import Splab.Shell.Processes

namespace Splab.Shell

/-- The shell reads a command line or is inside `waitfg`. -/
def Pc.listens : Pc → Bool
  | .prompt | .waitLookup _ | .waitTest _ _ | .aboutToPause _ _ | .paused _ _ => true
  | _ => false

/-- SIGCHLD is unblocked where the shell needs it and in each program that it has started. -/
structure MaskRestored (s : Sh) : Prop where
  shell : s.pc.listens = true → s.blocked = false
  programs : ∀ c ∈ s.children, c.execed = true → c.blocked = false

/-- `fork` succeeds, and no child calls `execve`. -/
def NoForkNoExec : Act → Prop
  | .main (.forked none) | .child _ .exec => False
  | _ => True

/-- `eval` is where it has blocked SIGCHLD, or the shell is left. -/
def Pc.masked : Pc → Bool
  | .evalFork _ _ | .evalAdd _ _ _ | .evalPrint _ | .evalUnblock _ _ | .exited | .crashed _ => true
  | _ => false

/-- A child before `execve`, with the mask that it has from the shell. -/
def Child.Inherited (c : Child) : Prop := c.blocked = true ∧ c.execed = false

structure MaskInv (s : Sh) : Prop where
  base : Base s
  shell : s.blocked = true → s.pc.masked = true
  children : ∀ c ∈ s.children, c.Inherited

section Mask
variable {s s' : Sh} {c : Child} {pc : Pc} {pid : Int} {children : List Child} {P : Child → Prop} {f : Child → Child}

theorem forall_onChild (pid : Int) (all : ∀ c ∈ children, P c) (keep : ∀ c, P c → P (f c)) :
    ∀ d ∈ onChild children pid f, P d := by
  intro d mem
  obtain ⟨c, inside, rfl⟩ := mem_onChild.mp mem
  split
  · exact keep c (all c inside)
  · exact all c inside

theorem Handled.forall_children (handled : Handled s c s') (all : ∀ d ∈ s.children, P d)
    (keep : ∀ d, P d → P { d with life := .stopped true, stopSeen := true }) : ∀ d ∈ s'.children, P d := by
  have stopped := forall_onChild c.pid all keep
  have reaped : ∀ d ∈ s.children.filter fun d => d.pid ≠ c.pid, P d := fun d mem => all d (List.mem_of_mem_filter mem)
  cases handled with
  | reaped => exact reaped
  | stopped => exact stopped
  | lost =>
    simp only [waited]
    split
    · exact stopped
    · exact reaped

theorem Pc.masked_of_listens (listens : pc.listens = true) : pc.masked = false := by
  cases pc <;> first | rfl | cases listens

theorem MaskInv.restored (inv : MaskInv s) : MaskRestored s where
  shell listens := by
    refine Bool.eq_false_iff.mpr fun blocked => ?_
    cases (inv.shell blocked).symm.trans (Pc.masked_of_listens listens)
  programs c mem execed := by cases execed.symm.trans (inv.children c mem).2

theorem MaskInv.handled (inv : MaskInv s) (unblocked : s.blocked = false) (mem : c ∈ s.children)
    (handled : Handled s c s') : MaskInv s' ∧ s'.blocked = false := by
  obtain ⟨base, unblocked⟩ := inv.base.handled unblocked mem handled
  refine ⟨⟨base, fun blocked => absurd (blocked.symm.trans unblocked) nofun, ?_⟩, unblocked⟩
  exact handled.forall_children inv.children fun _ => id

/-- A step that changes neither the mask nor the children. -/
theorem MaskInv.goto (inv : MaskInv s) (base : Base s') (blocked : s'.blocked = s.blocked)
    (children : ∀ c ∈ s'.children, c.Inherited) (masked : s.pc.masked = true → s'.pc.masked = true) : MaskInv s' :=
  ⟨base, fun now => masked (inv.shell (blocked ▸ now)), children⟩

theorem MaskInv.mainStep (inv : MaskInv s) {act : MainAct} (clean : NoForkNoExec (.main act))
    (next : MainStep s act s') :
    MaskInv s' := by
  have base := inv.base.mainStep next
  cases next with
  | eof => exact inv.goto base rfl inv.children fun _ => rfl
  | line here | noMemory here | readPid here | stopped here | notStopped here | killFailed here | write here
  | lookup here
  | lookupNull here | waiting here | done here | pause here =>
    exact inv.goto base rfl inv.children fun masked => by rw [here] at masked; cases masked
  | kill here =>
    refine inv.goto base rfl (forall_onChild _ inv.children fun _ => id) fun masked => ?_
    rw [here] at masked
    cases masked
  | forkFailed => exact clean.elim
  | block | print | printNull => exact ⟨base, fun _ => rfl, inv.children⟩
  | @forked bg cmdline pid here =>
    have between := inv.base.between
    rw [Between, here] at between
    exact ⟨base, fun _ => rfl, List.forall_mem_cons.mpr ⟨⟨between, rfl⟩, inv.children⟩⟩
  | @add pid bg => exact ⟨base, fun _ => by cases bg <;> rfl, inv.children⟩
  | unblock => exact ⟨base, by simp, inv.children⟩

theorem MaskInv.step (inv : MaskInv s) {act : Act} (clean : NoForkNoExec act) (next : s.step act = some s') :
    MaskInv s' := by
  have base := inv.base.step next
  have resumed : s.pc.masked = true → s.pc.resumed.masked = true := by
    cases s.pc <;> exact id
  cases step_cases next with
  | main next => exact inv.mainStep clean next
  | @child c c' pid event notify mem same changed =>
    obtain ⟨_, blocked, _, execed⟩ := Child.event_keeps changed
    obtain ⟨inherited, before⟩ := inv.children c mem
    refine ⟨base, inv.shell, fun d mem => ?_⟩
    obtain ⟨e, inside, rfl⟩ := mem_onChild.mp mem
    split
    · refine ⟨blocked.trans inherited, Bool.eq_false_iff.mpr fun now => ?_⟩
      rcases execed now with already | exec
      · cases already.symm.trans before
      · rw [exec] at clean
        exact clean
    · exact inv.children e inside
  | deliver unblocked ran =>
    have start : MaskInv { s with pending := false, pc := s.pc.resumed } :=
      inv.goto ⟨inv.base.agree, inv.base.between.resumed⟩ rfl inv.children resumed
    have keep := sigchldHandler_keeps (I := fun s => MaskInv s ∧ s.blocked = false) ⟨start, unblocked⟩ ran
    exact (keep fun s c s' both mem _ handled => both.1.handled both.2 mem handled).1
  | interrupt => exact inv.goto base rfl inv.children resumed
  | quit => exact inv.goto base rfl inv.children fun _ => rfl

/-- A failed `fork` leaves the shell with the signal blocked, and an `execve` the program. -/
theorem MaskInv.clean_of_step (inv : MaskInv s) {act : Act} (next : s.step act = some s') (restored : MaskRestored s') :
    NoForkNoExec act := by
  cases step_cases next with
  | deliver | interrupt | quit => trivial
  | @child c c' pid event notify mem same changed =>
    cases event with
    | exec =>
      obtain ⟨_, blocked, _⟩ := Child.event_keeps changed
      have execed : c'.execed = true := by
        rw [Child.event] at changed
        split at changed
        · cases changed
          rfl
        · cases changed
      have inside : c' ∈ onChild s.children pid fun _ => c' :=
        mem_onChild.mpr ⟨c, mem, by rw [if_pos same]⟩
      have unblocked := restored.programs c' inside execed
      cases unblocked.symm.trans (blocked.trans (inv.children c mem).1)
    | exit | kill | stop | cont => trivial
  | main next =>
    cases next with
    | forkFailed here =>
      have between := inv.base.between
      rw [Between, here] at between
      cases between.symm.trans (restored.shell rfl)
    | _ => trivial

theorem maskInv_initSh : MaskInv initSh := ⟨base_initSh, nofun, nofun⟩

/-- The mask is restored in all states of a run exactly when no `fork` fails and no child calls `execve`. -/
theorem maskRestored_iff (acts : List Act) :
    Always Sh.step MaskRestored initSh acts ↔ Meets Sh.step (fun _ => NoForkNoExec) initSh acts :=
  always_iff_meets maskInv_initSh (fun _ inv => inv.restored) (fun _ _ _ inv clean next => inv.step clean next)
    fun _ _ _ inv next restored => inv.clean_of_step next restored

theorem mask_kept : ¬∀ acts, Always Sh.step MaskRestored initSh acts := by
  intro always
  have shell := (always [.main (.line "ls\n".toList true), .main .next, .main (.forked none)]).final.shell
  revert shell
  decide +kernel

end Mask

end Splab.Shell
