import OfConfig.Sshd

/-!
# `OfConfig.Proofs.SshDaemon`: the module and the daemons it has started

The module keeps the process id of its daemon in a variable of 16 bits, forgets
it when it sends SIGTERM, and waits for nobody. So an old daemon may still be
there when the next one is started, and what can be said is about the daemons
that have not been told to end. `Known` says it: there is at most one of them,
and the variable and the environment name it.

* `Known.step`: every event keeps that, whether its calls of the system succeed
  or fail, as long as process ids fit into the variable and kill fails for a
  process only that is gone.
* `one_daemon`: so it is after every sequence of events, and after the
  configuration was removed or the module closed every daemon that is still
  running has got SIGTERM.
* `daemon_forgotten`, `daemon_kept`: both conditions are needed. A process id that
  is a multiple of 2^16 is taken for none, and a daemon that kill did not reach is
  forgotten as well; a second daemon is then started beside the first.
-/

set_option autoImplicit false

namespace OfConfig.Proofs

open OfConfig.Xml OfConfig.Sshd

/-- A daemon that has not got SIGTERM is the one that the module knows, and the
others have got it. All signals went to processes that the module has started. -/
structure Known (m : Module) : Prop where
  running : m.running = [] ∨ m.sshdPid ≠ 0 ∧ m.running = [m.sshdPid]
  ending : ∀ pid ∈ m.ending, (pid, .term) ∈ m.signals
  env : m.pidEnv = if m.sshdPid = 0 then none else some (toString m.sshdPid)
  started : m.sshdPid ≠ 0 → m.sshdPid ∈ m.started
  signals : ∀ s ∈ m.signals, s.1 ∈ m.started

/-- A process id that the variable can hold. -/
def PidFits (sys : System) : Prop := ∀ pid ∈ sys.fork, 0 < pid ∧ pid < 65536

/-- kill fails only if the daemon is not running any more. -/
def KillFits (success : Bool) (m : Module) : Prop := success = false → m.sshdPid ∉ m.running

/-- What is asked of the system in an event. A SIGHUP may fail in any case. -/
def EventFits (m : Module) : Sshd.Event → Prop
  | .init _ _ sys => PidFits sys
  | .listen sys op => PidFits sys ∧ (op = .rem → KillFits sys.kill m)
  | .close success => KillFits success m
  | _ => True

/-- What is asked of the system over a sequence of events, each of them in the
state that the ones before have left. -/
def RunFits : Module → List Sshd.Event → Prop
  | _, [] => True
  | m, e :: es => EventFits m e ∧ RunFits (Sshd.step m e) es

variable {m : Module} {sys : System}

/-- Only the texts are changed. -/
theorem Known.texts (h : Known m) (text config : Option String) :
    Known { m with sshdListen := text, config := config } :=
  ⟨h.running, h.ending, h.env, h.started, h.signals⟩

/-- One more signal to a process that the module has started. -/
theorem Known.signal (h : Known m) {pid : Nat} (hpid : pid ∈ m.started) (sig : Signal) :
    ∀ s ∈ m.signals ++ [(pid, sig)], s.1 ∈ m.started := by
  intro s hs
  rcases List.mem_append.mp hs with hold | hnew
  · exact h.signals s hold
  · rw [List.mem_singleton.mp hnew]
    exact hpid

/-- After `kill_sshd` every daemon that is running has got SIGTERM: it was sent to
the one that the module knew, unless that one had ended before. -/
theorem Known.running_kill (h : Known m) {success : Bool} (hkill : KillFits success m) :
    (killSshd success m).running = [] := by
  unfold killSshd Sshd.kill
  rcases h.running with hnone | ⟨hpid, hone⟩
  · split
    · cases success <;> simp [hnone]
    · exact hnone
  · rw [if_pos hpid]
    cases success with
    | true => simp [hone]
    | false =>
      have hgone : m.sshdPid ∉ m.running := hkill rfl
      exact absurd (by rw [hone]; exact List.mem_cons_self) hgone

theorem Known.kill (h : Known m) {success : Bool} (hkill : KillFits success m) :
    Known (killSshd success m) := by
  have hrunning := h.running_kill hkill
  revert hrunning
  unfold killSshd Sshd.kill
  split
  · next hpid =>
      intro hrunning
      refine ⟨.inl hrunning, ?_, rfl, fun h0 => absurd rfl h0, ?_⟩
      · cases success with
        | false => exact h.ending
        | true =>
          intro pid hmem
          refine List.mem_append.mpr ((List.mem_append.mp hmem).imp (h.ending pid) ?_)
          intro hnow
          obtain rfl : pid = m.sshdPid := by simpa using (List.mem_filter.mp hnow).2
          exact List.mem_singleton_self _
      · cases success with
        | false => exact h.signals
        | true => exact h.signal (h.started hpid) .term
  · exact fun _ => h

theorem Known.start (h : Known m) (hfits : PidFits sys) : Known (startSshd sys m).2 := by
  unfold startSshd
  split
  · next hpid =>
      unfold Sshd.kill
      split
      · exact ⟨h.running, fun pid hmem => List.mem_append_left _ (h.ending pid hmem), h.env,
          h.started, h.signal (h.started hpid) .hup⟩
      · exact h
  · next hpid =>
      split
      · exact h
      · next pid hfork =>
          obtain ⟨hpos, hlt⟩ := hfits pid hfork
          have hmod : pid % 65536 = pid := Nat.mod_eq_of_lt hlt
          have hnone : m.running = [] := h.running.resolve_right (fun hone => hpid hone.1)
          refine ⟨.inr ⟨?_, ?_⟩, h.ending, ?_, ?_, ?_⟩
          · simp only [hmod]
            omega
          · simp only [hmod, hnone, List.nil_append]
          · simp only [hmod]
            rw [if_neg (by omega)]
          · simp only [hmod]
            exact fun _ => List.mem_append_right _ List.mem_cons_self
          · exact fun s hs => List.mem_append_left _ (h.signals s hs)

theorem Known.listen (h : Known m) (hfits : PidFits sys) (op : DiffOp)
    (hkill : op = .rem → KillFits sys.kill m) : Known (Sshd.listen sys op m).2 := by
  unfold Sshd.listen
  split
  · next hop => exact h.kill (hkill hop)
  · split
    · exact h
    · split
      · exact h
      · split
        · exact h.texts m.sshdListen _
        · exact (h.texts none _).start hfits

theorem Known.oneport (h : Known m) (memory : Bool) (op : DiffOp) (new : Node) :
    Known (listenOneport memory op new m).2 := by
  unfold listenOneport
  split
  · exact h
  · split
    · exact h.texts _ m.config
    · exact h.texts none m.config

theorem Known.manyports (h : Known m) (memory : Bool) (op : DiffOp) (new : Node) :
    Known (listenManyports memory op new m).2 := by
  unfold listenManyports
  split
  · exact h
  · split
    · exact h.texts _ m.config
    · exact h.texts none m.config

theorem Known.init (h : Known m) (hfits : PidFits sys) (enabled memory : Bool) :
    Known (serverTransapiInit enabled memory sys m).2 := by
  have hport := h.oneport memory .add defaultPort
  have hlisten := hport.listen hfits .add (by simp)
  unfold serverTransapiInit
  split
  · exact h
  · simp only
    split
    · split
      · exact hlisten
      · exact hlisten
    · exact hport

/-- A daemon ends, with or without a signal. -/
theorem Known.ended (h : Known m) (pid : Nat) : Known (Sshd.step m (.ended pid)) := by
  refine ⟨?_, fun p hp => h.ending p (List.mem_filter.mp hp).1, h.env, h.started, h.signals⟩
  simp only [Sshd.step]
  rcases h.running with hnone | ⟨hpid, hone⟩
  · exact .inl (by simp [hnone])
  · by_cases heq : m.sshdPid = pid
    · exact .inl (by simp [hone, heq])
    · exact .inr ⟨hpid, by simp [hone, heq]⟩

/-- One event. -/
theorem Known.step (h : Known m) {e : Sshd.Event} (hfits : EventFits m e) :
    Known (Sshd.step m e) := by
  cases e with
  | init enabled memory sys => exact h.init hfits enabled memory
  | oneport memory op new => exact h.oneport memory op new
  | manyports memory op new => exact h.manyports memory op new
  | listen sys op => exact h.listen hfits.1 op hfits.2
  | close success => exact h.kill hfits
  | ended pid => exact h.ended pid

theorem known_load : Known Module.load :=
  ⟨.inl rfl, by simp [Module.load], rfl, fun h => absurd rfl h, by simp [Module.load]⟩

/-- A sequence of events, from any state in which the daemon is known. -/
theorem Known.foldl (h : Known m) {es : List Sshd.Event} (hfits : RunFits m es) :
    Known (es.foldl Sshd.step m) := by
  induction es generalizing m with
  | nil => exact h
  | cons e es ih => exact ih (h.step hfits.1) hfits.2

/-- The events that end the daemon. -/
def Stops : Sshd.Event → Prop
  | .listen _ op => op = .rem
  | .close _ => True
  | _ => False

/-- After such an event every daemon that is running has got SIGTERM. -/
theorem Known.stopped (h : Known m) {e : Sshd.Event} (hstop : Stops e) (hfits : EventFits m e) :
    (Sshd.step m e).running = [] := by
  cases e with
  | listen sys op =>
    obtain rfl : op = .rem := hstop
    exact h.running_kill (hfits.2 rfl)
  | close success => exact h.running_kill hfits
  | init _ _ _ => exact hstop.elim
  | oneport _ _ _ => exact hstop.elim
  | manyports _ _ _ => exact hstop.elim
  | ended _ => exact hstop.elim

/-- Over every sequence of callbacks, failures and ends of daemons: at most one
daemon is running that has not got SIGTERM, and it is the one whose process id
the module and the environment have. Signals go to daemons of the module only,
and after the configuration was removed or the module closed every daemon that is
still running has got SIGTERM. -/
theorem one_daemon {es : List Sshd.Event} (hfits : RunFits .load es) :
    Known (run es) ∧ ∀ e, Stops e → EventFits (run es) e → (run (es ++ [e])).running = [] := by
  have hknown : Known (run es) := known_load.foldl hfits
  refine ⟨hknown, fun e hstop hfits => ?_⟩
  rw [run, List.foldl_append]
  exact hknown.stopped hstop hfits

/-- A system in which everything succeeds. -/
def grantingSystem (pid : Nat) : System := ⟨some "", true, true, true, some pid, true⟩

/-- A daemon is started, told to read its configuration again and told to end,
and another one is started while it is still there. It ends, the other one dies as
well, and kill fails for it when the module is closed. -/
theorem one_daemon_restarted :
    let es : List Sshd.Event := [.init true true (grantingSystem 812),
      .listen (grantingSystem 813) .mod, .listen (grantingSystem 813) .rem,
      .listen (grantingSystem 814) .add]
    ((run es).running = [814] ∧ (run es).ending = [812]) ∧ Known (run es) ∧
      (run ((es ++ [.ended 812, .ended 814]) ++ [.close false])).running = [] := by
  intro es
  have hfits : RunFits .load es := by simp [es, RunFits, EventFits, PidFits, KillFits,
    grantingSystem]
  have hmore : RunFits .load (es ++ [.ended 812, .ended 814]) := by
    simp [es, RunFits, EventFits, PidFits, KillFits, grantingSystem]
  have hgone : EventFits (run (es ++ [.ended 812, .ended 814])) (.close false) := fun _ => by
    decide
  exact ⟨⟨rfl, rfl⟩, (one_daemon hfits).1, (one_daemon hmore).2 _ trivial hgone⟩

/-- The bound on process ids is needed: a daemon whose id is a multiple of 2^16 is
forgotten, and the next change starts another one beside it. -/
theorem daemon_forgotten {pid : Nat} (hpid : pid % 65536 = 0) (pid' : Nat) :
    (run [.init true true (grantingSystem pid),
      .listen (grantingSystem pid') .mod]).running = [pid, pid'] := by
  have hinit : (run [.init true true (grantingSystem pid)]).sshdPid = 0 := hpid
  have hlisten : (run [.init true true (grantingSystem pid),
      .listen (grantingSystem pid') .mod]).running = (startSshd (grantingSystem pid')
        { run [.init true true (grantingSystem pid)] with
            config := some "\n# NETCONF listening settings\n(null)"
            sshdListen := none }).2.running := rfl
  rw [hlisten, startSshd, if_neg (by simp [hinit])]
  rfl

/-- So is the condition on kill: a daemon that the signal did not reach goes on,
and the module has forgotten it. -/
theorem daemon_kept (h : Known m) (hrun : m.running = [m.sshdPid]) (pid : Nat) :
    (Sshd.step (Sshd.step m (.close false)) (.listen (grantingSystem pid) .add)).running =
      [m.sshdPid, pid] := by
  have hpid : m.sshdPid ≠ 0 := by
    rcases h.running with hnone | ⟨hpid, -⟩
    · simp [hnone] at hrun
    · exact hpid
  simp [Sshd.step, serverTransapiClose, killSshd, Sshd.kill, hpid, Sshd.listen, grantingSystem,
    startSshd, hrun]

end OfConfig.Proofs
