import OfConfig.Comm.Agent

/-!
# `OfConfig.Proofs.AgentRuns`: what an agent does from its start to its end

A run of `main` is described by the calls of the server that it makes and by the
replies that it sends to its client. `processMessage_local`,
`processMessage_waiting` and `processMessage_answered` say what one RPC does,
`mainLoop_talk` what the loop does, `main_spoken` and `main_closes` what `main`
does.

`agent_run`: the agent hands over the session that libnetconf has accepted for
its client (`Accepted`), and takes no RPC unless the server has said yes to that.
It forwards the RPCs of the client in their order, one call at most for each, and
answers every one of them exactly once and in order with the result of its own
call. It does not use the channel after the close, and it does not end without
one.
-/

set_option autoImplicit false

namespace OfConfig.Proofs

open OfConfig.Lib OfConfig.Xml OfConfig.Comm.Wire OfConfig.Comm.Agent

variable {result : CallResult} {results : List CallResult}

/-! ### One RPC -/

/-- The call that is made for an RPC. -/
def callOf (rpc : Rpc) : Option AgentCall :=
  match rpc.op with
  | .closeSession => some .close
  | .killSession opnode => (sessionToKill opnode).toOption.map .killSession
  | .createSubscription _ => none
  | .other => some (.operation rpc.dump)

/-- Does the client close its session? -/
def closesSession (rpc : Rpc) : Bool :=
  match rpc.op with
  | .closeSession => true
  | _ => false

/-- What the client should get for an RPC and the result of its call, if there
is one. -/
def answer (env : Outside) (rpc : Rpc) (result : Option CallResult) : ClientReply :=
  match rpc.op with
  | .closeSession => .ok
  | .killSession opnode =>
    match sessionToKill opnode with
    | .error reply => reply
    | .ok _ => (serverReply env result).getD (.opFailed none none)
  | .createSubscription s => createSubscription s
  | .other => (serverReply env result).getD (.opFailed none none)

/-- The process after an RPC was answered with the result of a call. -/
def answered (env : Outside) (rpc : Rpc) (call : AgentCall) (result : CallResult)
    (results : List CallResult) (a : Process) : Process where
  c := if closesSession rpc then .null else .ready
  mainloop := closesSession rpc || a.mainloop
  results := results
  calls := a.calls ++ [call]
  replies := a.replies ++ [(rpc, answer env rpc (some result))]

variable {env : Outside} {rpc : Rpc} {call : AgentCall} {a : Process}

theorem commCall_waiting (hc : a.c = .ready) (hr : a.results = []) (call : AgentCall) :
    commCall call a = (.error .waiting, { a with calls := a.calls ++ [call] }) := by
  simp only [commCall, hc, hr]

theorem commCall_answered (hc : a.c = .ready) (hr : a.results = result :: results)
    (hok : result ≠ .crash) (call : AgentCall) :
    commCall call a =
      (.ok (some result), { a with calls := a.calls ++ [call], results := results }) := by
  cases result with
  | crash => exact absurd rfl hok
  | _ => simp only [commCall, hc, hr]

theorem commDestroy_ready (hc : a.c = .ready) :
    commDestroy a = (do
      let _ ← commCall .close
      Prog.update (fun a => { a with c := .invalid }) : Act Unit) a := by
  rw [commDestroy, Prog.bind_run_ok (Prog.read_run _ _), if_pos hc]

theorem commDestroy_closed (hc : a.c ≠ .ready) : commDestroy a = (.ok (), a) := by
  rw [commDestroy, Prog.bind_run_ok (Prog.read_run _ _), if_neg hc]
  rfl

/-- An RPC for which no call is made. -/
theorem processMessage_local (h : callOf rpc = none) (a : Process) :
    processMessage env (some rpc) a =
      (.ok true, { a with replies := a.replies ++ [(rpc, answer env rpc none)] }) := by
  obtain ⟨op, dump⟩ := rpc
  cases op with
  | closeSession => simp [callOf] at h
  | other => simp [callOf] at h
  | createSubscription s => rfl
  | killSession opnode =>
    cases hsid : sessionToKill opnode with
    | ok sid => simp [callOf, hsid, Except.toOption] at h
    | error reply =>
      simp only [processMessage, messageReply, answer, hsid]
      rfl

/-- The server has not answered the call for an RPC yet. -/
theorem processMessage_waiting (h : callOf rpc = some call) (hc : a.c = .ready)
    (hr : a.results = []) :
    processMessage env (some rpc) a =
      (.error .waiting, { a with calls := a.calls ++ [call] }) := by
  have hcomm := commCall_waiting hc hr
  obtain ⟨op, dump⟩ := rpc
  cases op with
  | createSubscription s => simp [callOf] at h
  | closeSession =>
    obtain rfl : .close = call := by simpa [callOf] using h
    have hdestroy : commDestroy a =
        (.error .waiting, { a with calls := a.calls ++ [.close] }) := by
      rw [commDestroy_ready hc, Prog.bind_run_error (hcomm .close)]
    simp only [processMessage, messageReply]
    rw [Prog.bind_run_error (Prog.bind_run_error hdestroy)]
  | other =>
    obtain rfl : .operation dump = call := by simpa [callOf] using h
    simp only [processMessage, messageReply]
    rw [Prog.bind_run_error (Prog.bind_run_error (hcomm _))]
  | killSession opnode =>
    cases hsid : sessionToKill opnode with
    | error reply => simp [callOf, hsid, Except.toOption] at h
    | ok sid =>
      obtain rfl : .killSession sid = call := by simpa [callOf, hsid, Except.toOption] using h
      simp only [processMessage, messageReply, hsid]
      rw [Prog.bind_run_error (Prog.bind_run_error (hcomm _))]

/-- The reply goes to the client. -/
theorem processMessage_reply {reply : Option ClientReply} {a' : Process}
    (h : messageReply env rpc a = (.ok reply, a')) :
    processMessage env (some rpc) a =
      (.ok true, { a' with replies :=
        a'.replies ++ [(rpc, reply.getD (.opFailed none none))] }) := by
  rw [processMessage, Prog.bind_run_ok h]
  rfl

/-- The server has answered the call for an RPC. -/
theorem processMessage_answered (h : callOf rpc = some call) (hc : a.c = .ready)
    (hr : a.results = result :: results) (hok : result ≠ .crash) :
    processMessage env (some rpc) a = (.ok true, answered env rpc call result results a) := by
  have hcomm := commCall_answered hc hr hok
  obtain ⟨op, dump⟩ := rpc
  cases op with
  | createSubscription s => simp [callOf] at h
  | closeSession =>
    obtain rfl : .close = call := by simpa [callOf] using h
    have hdestroy : commDestroy a =
        (.ok (), ⟨.invalid, a.mainloop, results, a.calls ++ [.close], a.replies⟩) := by
      rw [commDestroy_ready hc, Prog.bind_run_ok (hcomm .close)]
      rfl
    have hreply : messageReply env ⟨.closeSession, dump⟩ a = _ := Prog.bind_run_ok hdestroy
    rw [processMessage_reply hreply]
    rfl
  | other =>
    obtain rfl : .operation dump = call := by simpa [callOf] using h
    have hreply : messageReply env ⟨.other, dump⟩ a = _ := Prog.bind_run_ok (hcomm _)
    rw [processMessage_reply hreply]
    simp [answered, closesSession, answer, hc]
  | killSession opnode =>
    cases hsid : sessionToKill opnode with
    | error reply => simp [callOf, hsid, Except.toOption] at h
    | ok sid =>
      obtain rfl : .killSession sid = call := by simpa [callOf, hsid, Except.toOption] using h
      have hreply : messageReply env ⟨.killSession opnode, dump⟩ a =
          (.ok (serverReply env (some result)),
            { a with calls := a.calls ++ [.killSession sid], results := results }) := by
        simp only [messageReply, hsid]
        exact Prog.bind_run_ok (hcomm _)
      rw [processMessage_reply hreply]
      simp [answered, closesSession, answer, hsid, hc]

/-! ### The loop -/

/-- The RPC in what libnetconf returned. -/
def rpcOf : Comm.Agent.Input → Option Rpc
  | .rpc rpc => rpc
  | _ => none

/-- The RPCs of the client. -/
def rpcsOf (inputs : List Comm.Agent.Input) : List Rpc := inputs.filterMap rpcOf

/-- What the client should get for its RPCs, as far as the results of the server
reach. -/
def answers (env : Outside) : List Rpc → List CallResult → List (Rpc × ClientReply)
  | [], _ => []
  | rpc :: rpcs, results =>
    match callOf rpc, results with
    | none, results => (rpc, answer env rpc none) :: answers env rpcs results
    | some _, [] => []
    | some _, result :: results =>
      (rpc, answer env rpc (some result)) :: answers env rpcs results

/-- What a process has done with the RPCs it has taken: one call at most for each
of them, and the replies. The close of the client comes last. -/
structure Talk (env : Outside) (rpcs : List Rpc) (a : Process) (r : Except Stop Bool × Process) :
    Prop where
  alive : r.1 ≠ .error .crash
  calls : r.2.calls = a.calls ++ rpcs.filterMap callOf
  close : .close ∉ (rpcs.filterMap callOf).dropLast
  replies : r.2.replies = a.replies ++ answers env rpcs a.results
  waiting : r.1 = .error .waiting → (rpcs.filterMap callOf).length = a.results.length + 1
  results : r.1 ≠ .error .waiting → (rpcs.filterMap callOf).length + r.2.results.length =
    a.results.length ∧ r.2.results <:+ a.results
  answered : r.1 ≠ .error .waiting → (answers env rpcs a.results).map Prod.fst = rpcs
  chan : r.1 ≠ .error .waiting →
    .close ∈ rpcs.filterMap callOf ∧ r.2.c = .null ∨
      .close ∉ rpcs.filterMap callOf ∧ r.2.c = .ready

theorem callOf_eq_close (rpc : Rpc) : callOf rpc = some .close ↔ closesSession rpc = true := by
  obtain ⟨op, dump⟩ := rpc
  cases op <;> simp [callOf, closesSession]

/-- The call for an RPC that does not close the session is no close. -/
theorem callOf_ne_close (h : callOf rpc = some call) (hopen : closesSession rpc = false) :
    call ≠ .close := by
  rintro rfl
  simp [(callOf_eq_close rpc).mp h] at hopen

variable {rpcs : List Rpc} {r : Except Stop Bool × Process}

/-- Nothing was taken. -/
theorem talk_nil {out : Except Stop Bool} (hcrash : out ≠ .error .crash)
    (hwaiting : out ≠ .error .waiting) {a a' : Process} (hc : a'.c = .ready)
    (hcalls : a'.calls = a.calls) (hreplies : a'.replies = a.replies)
    (hresults : a'.results = a.results) : Talk env [] a (out, a') where
  alive := hcrash
  calls := by simpa using hcalls
  close := by simp
  replies := by simpa [answers] using hreplies
  waiting h := absurd h hwaiting
  results _ := by simp [hresults]
  answered _ := rfl
  chan _ := .inr ⟨by simp, hc⟩

theorem Talk.local (h : callOf rpc = none)
    (ht : Talk env rpcs { a with replies := a.replies ++ [(rpc, answer env rpc none)] } r) :
    Talk env (rpc :: rpcs) a r where
  alive := ht.alive
  calls := by simpa [h] using ht.calls
  close := by simpa [h] using ht.close
  replies := by simpa [answers, h] using ht.replies
  waiting := by simpa [h] using ht.waiting
  results := by simpa [h] using ht.results
  answered hw := by simpa [answers, h] using ht.answered hw
  chan := by simpa [h] using ht.chan

theorem talk_waiting (h : callOf rpc = some call) (hr : a.results = []) :
    Talk env [rpc] a (.error .waiting, { a with calls := a.calls ++ [call] }) where
  alive := by simp
  calls := by simp [h]
  close := by simp [h]
  replies := by simp [answers, h, hr]
  waiting _ := by simp [h, hr]
  results hw := absurd rfl hw
  answered hw := absurd rfl hw
  chan hw := absurd rfl hw

theorem Talk.answer (h : callOf rpc = some call) (hopen : closesSession rpc = false)
    (hr : a.results = result :: results)
    (ht : Talk env rpcs (Proofs.answered env rpc call result results a) r) :
    Talk env (rpc :: rpcs) a r where
  alive := ht.alive
  calls := by simpa [h, Proofs.answered] using ht.calls
  close := by
    have hne : call ≠ .close := callOf_ne_close h hopen
    have hclose := ht.close
    simp only [h, List.filterMap_cons]
    cases hcalls : rpcs.filterMap callOf with
    | nil => simp
    | cons call' calls =>
      rw [hcalls] at hclose
      simp [hne.symm, hclose]
  replies := by simpa [answers, h, hr, Proofs.answered] using ht.replies
  waiting hw := by simpa [h, hr, Proofs.answered] using ht.waiting hw
  results hw := by
    obtain ⟨hlength, hsuffix⟩ := ht.results hw
    simp only [Proofs.answered] at hlength hsuffix
    refine ⟨by simp [h, hr]; omega, ?_⟩
    rw [hr]
    exact hsuffix.trans (List.suffix_cons _ _)
  answered hw := by simpa [answers, h, hr, Proofs.answered] using ht.answered hw
  chan hw := by simpa [h, (callOf_ne_close h hopen).symm] using ht.chan hw

theorem talk_close (h : closesSession rpc = true) (hr : a.results = result :: results)
    (ret : Bool) :
    Talk env [rpc] a (.ok ret, answered env rpc .close result results a) := by
  have hcall : callOf rpc = some .close := (callOf_eq_close rpc).mpr h
  exact
    { alive := by simp
      calls := by simp [hcall, answered]
      close := by simp [hcall]
      replies := by simp [answers, hcall, hr, answered]
      waiting := by simp
      results := fun _ => by simp [hcall, hr, answered]; omega
      answered := fun _ => by simp [answers, hcall, hr]
      chan := fun _ => .inl ⟨by simp [hcall], by simp [answered, h]⟩ }

theorem mainLoop_done (env : Outside) (inputs : List Comm.Agent.Input)
    (hm : a.mainloop = true) : mainLoop env inputs a = (.ok true, a) := by
  cases inputs <;> simp [mainLoop, Prog.bind_run, hm]

theorem mainLoop_nil (env : Outside) (hm : a.mainloop = false) :
    mainLoop env [] a = (.error .listening, a) := by
  simp [mainLoop, Prog.bind_run, hm]

theorem mainLoop_cons (env : Outside) (input : Comm.Agent.Input)
    (inputs : List Comm.Agent.Input) (hm : a.mainloop = false) :
    mainLoop env (input :: inputs) a = mainRound env input (mainLoop env inputs) a := by
  simp [mainLoop, Prog.bind_run, hm]

/-- An RPC is taken in a round of the loop. -/
theorem mainLoop_rpc (env : Outside) (inputs : List Comm.Agent.Input) (hc : a.c = .ready)
    (hm : a.mainloop = false) (hok : .crash ∉ a.results) (rpc : Rpc) :
    Talk env [rpc] a (mainLoop env (.rpc (some rpc) :: inputs) a) ∧
        (mainLoop env (.rpc (some rpc) :: inputs) a).1 ≠ .error .listening ∨
      ∃ a', a'.c = .ready ∧ a'.mainloop = false ∧ .crash ∉ a'.results ∧
        mainLoop env (.rpc (some rpc) :: inputs) a = mainLoop env inputs a' ∧
        ∀ rpcs r, Talk env rpcs a' r → Talk env (rpc :: rpcs) a r := by
  rw [mainLoop_cons env _ inputs hm, mainRound]
  cases hcall : callOf rpc with
  | none =>
    right
    rw [Prog.bind_run_ok (processMessage_local hcall a)]
    refine ⟨_, ?_, ?_, ?_, rfl, fun rpcs r ht => ht.local hcall⟩
    · exact hc
    · exact hm
    · exact hok
  | some call =>
    cases hr : a.results with
    | nil =>
      left
      rw [Prog.bind_run_error (processMessage_waiting hcall hc hr)]
      exact ⟨talk_waiting hcall hr, by simp⟩
    | cons result results =>
      have hresult : result ≠ .crash := fun h => hok (by simp [hr, h])
      rw [Prog.bind_run_ok (processMessage_answered hcall hc hr hresult)]
      cases hclose : closesSession rpc with
      | true =>
        left
        obtain rfl : .close = call := by
          simpa [(callOf_eq_close rpc).mpr hclose] using hcall
        rw [mainLoop_done env inputs (by simp [answered, hclose])]
        exact ⟨talk_close hclose hr true, by simp⟩
      | false =>
        right
        refine ⟨_, ?_, ?_, ?_, rfl, fun rpcs r ht => ht.answer hcall hclose hr⟩
        · simp [answered, hclose]
        · simp [answered, hclose, hm]
        · intro h
          exact hok (by simp [hr, show .crash ∈ results from h])

/-- The loop, from a state in which the channel is open. -/
theorem mainLoop_talk (env : Outside) (inputs : List Comm.Agent.Input) {a : Process}
    (hc : a.c = .ready) (hm : a.mainloop = false) (hok : .crash ∉ a.results) :
    ∃ used, used <+: inputs ∧ Talk env (rpcsOf used) a (mainLoop env inputs a) ∧
      ((mainLoop env inputs a).1 = .error .listening →
        used = inputs ∧ (mainLoop env inputs a).2.c = .ready) := by
  induction inputs generalizing a with
  | nil =>
    rw [mainLoop_nil env hm]
    exact ⟨[], List.prefix_refl _, talk_nil (by simp) (by simp) hc rfl rfl rfl,
      fun _ => ⟨rfl, hc⟩⟩
  | cons input inputs ih =>
    -- an input that is no RPC leaves the process as it is
    have hskip : rpcOf input = none → mainLoop env (input :: inputs) a = mainLoop env inputs a →
        ∃ used, used <+: input :: inputs ∧
          Talk env (rpcsOf used) a (mainLoop env (input :: inputs) a) ∧
          ((mainLoop env (input :: inputs) a).1 = .error .listening →
            used = input :: inputs ∧ (mainLoop env (input :: inputs) a).2.c = .ready) := by
      intro hnone hrun
      obtain ⟨used, hused, htalk, hall⟩ := ih hc hm hok
      rw [hrun]
      refine ⟨input :: used, List.cons_prefix_cons.mpr ⟨rfl, hused⟩, ?_,
        fun h => ⟨by rw [(hall h).1], (hall h).2⟩⟩
      simpa [rpcsOf, hnone] using htalk
    cases input with
    | none => exact hskip rfl (mainLoop_cons env _ inputs hm)
    | signal =>
      have hrun : mainLoop env (.signal :: inputs) a = _ :=
        (mainLoop_cons env _ inputs hm).trans (mainLoop_done env inputs rfl)
      rw [hrun]
      exact ⟨[], List.nil_prefix, talk_nil (by simp) (by simp) hc rfl rfl rfl, by simp⟩
    | unknown working =>
      cases working with
      | true => exact hskip rfl (mainLoop_cons env _ inputs hm)
      | false =>
        have hrun : mainLoop env (.unknown false :: inputs) a = (.ok false, a) :=
          mainLoop_cons env _ inputs hm
        rw [hrun]
        exact ⟨[], List.nil_prefix, talk_nil (by simp) (by simp) hc rfl rfl rfl, by simp⟩
    | rpc rpc =>
      cases rpc with
      | none => exact hskip rfl (mainLoop_cons env _ inputs hm)
      | some rpc =>
        rcases mainLoop_rpc env inputs hc hm hok rpc with
          ⟨htalk, hne⟩ | ⟨a', hc', hm', hok', hrun, hcons⟩
        · exact ⟨[.rpc (some rpc)], List.cons_prefix_cons.mpr ⟨rfl, List.nil_prefix⟩, htalk,
            fun h => absurd h hne⟩
        · obtain ⟨used, hused, htalk, hall⟩ := ih hc' hm' hok'
          rw [hrun]
          exact ⟨.rpc (some rpc) :: used, List.cons_prefix_cons.mpr ⟨rfl, hused⟩,
            hcons _ _ htalk, fun h => ⟨by rw [(hall h).1], (hall h).2⟩⟩

/-! ### The whole process -/

/-- The session of the client: libnetconf has accepted it with the capabilities
that the server has sent as its first result. -/
def Accepted (env : Outside) (results : List CallResult) (username sid : String)
    (cpblts : Cpblts) : Prop :=
  ∃ capabilities ncs, results.head? = some (.cpblts (some capabilities)) ∧
    env.accept capabilities = some ncs ∧
    ncs.user = some username ∧ ncs.id = some sid ∧ ncs.cpblts = some cpblts

/-- The calls before the first RPC, and what is taken after them: nothing, unless
the session of the client was handed over, under its own user, id and
capabilities, and the server has said yes. -/
inductive Hello (env : Outside) (results : List CallResult) :
    List AgentCall → List Comm.Agent.Input → Prop where
  | none : Hello env results [] []
  | cpblts : Hello env results [.getSrvCpblts] []
  | session {username sid : String} {cpblts : Cpblts} {used : List Comm.Agent.Input}
      (haccepted : Accepted env results username sid cpblts)
      (hgranted : used ≠ [] → results[1]? = some (.status true)) :
      Hello env results [.getSrvCpblts, .sessionInfoSend username sid cpblts env.pid] used

theorem Hello.close_notMem {hello : List AgentCall} {used : List Comm.Agent.Input}
    (h : Hello env results hello used) : .close ∉ hello := by
  cases h <;> simp

/-- A run up to a point: the calls are those of the hand-over and of the RPCs
that were taken, and possibly a close at the end. -/
structure Spoken (env : Outside) (inputs : List Comm.Agent.Input) (results : List CallResult)
    (hello : List AgentCall) (used : List Comm.Agent.Input) (r : Except Stop Bool × Process) :
    Prop where
  opening : Hello env results hello used
  taken : used <+: inputs
  /-- The channel is not used without being there. -/
  alive : r.1 ≠ .error .crash
  calls : r.2.calls = hello ++ (rpcsOf used).filterMap callOf ∨
    r.2.calls = hello ++ (rpcsOf used).filterMap callOf ++ [.close]
  /-- There is one close, and no call after it. -/
  once : .close ∉ r.2.calls.dropLast
  replies : r.2.replies = answers env (rpcsOf used) (results.drop hello.length)
  /-- Every RPC that was taken is answered, unless the server has to answer
  first. -/
  answered : r.1 ≠ .error .waiting → r.2.replies.map Prod.fst = rpcsOf used
  waiting : r.1 = .error .waiting → r.2.calls.length = results.length + 1
  listening : r.1 = .error .listening → used = inputs ∧ .close ∉ r.2.calls

/-- The channel at a point: it is closed, or there was no close. -/
structure Held (results : List CallResult) (r : Except Stop Bool × Process) : Prop where
  results : r.1 ≠ .error .waiting →
    .crash ∉ r.2.results ∧ r.2.calls.length + r.2.results.length = results.length
  chan : r.1 ≠ .error .waiting →
    r.2.c ≠ .ready ∧ (r.2.calls = [] ∨ r.2.calls.getLast? = some .close) ∨
      r.2.c = .ready ∧ .close ∉ r.2.calls

variable {b : Process} {inputs used : List Comm.Agent.Input} {results : List CallResult}
  {hello : List AgentCall} {ret : Bool}

theorem close_notMem_dropLast {calls : List AgentCall} (h : .close ∉ hello)
    (hcalls : .close ∉ calls.dropLast) : .close ∉ (hello ++ calls).dropLast := by
  cases calls with
  | nil =>
    rw [List.append_nil]
    exact fun hmem => h (List.dropLast_subset _ hmem)
  | cons call calls =>
    rw [List.dropLast_append_of_ne_nil (List.cons_ne_nil _ _)]
    exact fun hmem => (List.mem_append.mp hmem).elim h hcalls

theorem getLast?_close {calls : List AgentCall} (hmem : .close ∈ calls)
    (honce : .close ∉ calls.dropLast) : calls.getLast? = some .close := by
  have hne : calls ≠ [] := List.ne_nil_of_mem hmem
  rw [← List.dropLast_append_getLast hne, List.mem_append, List.mem_singleton] at hmem
  rw [List.getLast?_eq_some_getLast hne, hmem.resolve_left honce]

/-- What the process has done after the hand-over. -/
theorem Talk.spoken {r : Except Stop Bool × Process} (hhello : Hello env results hello used)
    (hcalls : a.calls = hello) (hreplies : a.replies = [])
    (hresults : results.drop hello.length = a.results) (hlen : hello.length ≤ results.length)
    (htaken : used <+: inputs)
    (hlisten : r.1 = .error .listening → used = inputs ∧ r.2.c = .ready)
    (ht : Talk env (rpcsOf used) a r) : Spoken env inputs results hello used r := by
  have hall : r.2.calls = hello ++ (rpcsOf used).filterMap callOf := by
    rw [ht.calls, hcalls]
  have hreps : r.2.replies = answers env (rpcsOf used) a.results := by
    rw [ht.replies, hreplies, List.nil_append]
  have hlength : a.results.length = results.length - hello.length := by
    rw [← hresults, List.length_drop]
  refine ⟨hhello, htaken, ht.alive, .inl hall, ?_, ?_, ?_, ?_, ?_⟩
  · rw [hall]
    exact close_notMem_dropLast hhello.close_notMem ht.close
  · rw [hreps, hresults]
  · intro hw
    rw [hreps]
    exact ht.answered hw
  · intro hw
    rw [hall, List.length_append, ht.waiting hw]
    omega
  · intro hl
    obtain ⟨hused, hready⟩ := hlisten hl
    refine ⟨hused, ?_⟩
    rcases ht.chan (by simp [hl]) with ⟨-, hnull⟩ | ⟨hclose, -⟩
    · simp [hnull] at hready
    · rw [hall, List.mem_append]
      exact fun hmem => hmem.elim hhello.close_notMem hclose

theorem Talk.held {r : Except Stop Bool × Process} (hhello : Hello env results hello used)
    (hcalls : a.calls = hello) (hresults : results.drop hello.length = a.results)
    (hlen : hello.length ≤ results.length) (hok : .crash ∉ results)
    (ht : Talk env (rpcsOf used) a r) : Held results r := by
  have hall : r.2.calls = hello ++ (rpcsOf used).filterMap callOf := by
    rw [ht.calls, hcalls]
  have hlength : a.results.length = results.length - hello.length := by
    rw [← hresults, List.length_drop]
  refine ⟨fun hw => ?_, fun hw => ?_⟩
  · obtain ⟨hsum, hsuffix⟩ := ht.results hw
    refine ⟨fun hmem => hok ?_, ?_⟩
    · exact List.mem_of_mem_drop (hresults ▸ hsuffix.subset hmem)
    · rw [hall, List.length_append]
      omega
  · rw [hall]
    rcases ht.chan hw with ⟨hclose, hnull⟩ | ⟨hclose, hready⟩
    · refine .inl ⟨by simp [hnull], .inr (getLast?_close (List.mem_append_right _ hclose) ?_)⟩
      exact close_notMem_dropLast hhello.close_notMem ht.close
    · exact .inr ⟨hready, fun hmem => (List.mem_append.mp hmem).elim hhello.close_notMem hclose⟩

/-- The label `cleanup`: a channel that is there is closed. -/
theorem main_of_body {ret : Bool}
    (hbody : mainBody env inputs a = (.ok ret, b)) (hok : .crash ∉ b.results) :
    (b.c ≠ .ready ∧ main env inputs a = (.ok ret, b)) ∨
    (b.c = .ready ∧ b.results = [] ∧
      main env inputs a = (.error .waiting, { b with calls := b.calls ++ [.close] })) ∨
    (b.c = .ready ∧ ∃ result rest, b.results = result :: rest ∧
      main env inputs a =
        (.ok ret, ⟨.invalid, b.mainloop, rest, b.calls ++ [.close], b.replies⟩)) := by
  have hmain : main env inputs a = (commDestroy >>= fun _ => pure ret) b :=
    Prog.bind_run_ok hbody
  rw [hmain]
  by_cases hc : b.c = .ready
  · right
    cases hr : b.results with
    | nil =>
      refine .inl ⟨hc, rfl, ?_⟩
      rw [Prog.bind_run_error]
      rw [commDestroy_ready hc, Prog.bind_run_error (commCall_waiting hc hr _), hr]
    | cons result rest =>
      have hresult : result ≠ .crash := fun h => hok (by simp [hr, h])
      refine .inr ⟨hc, result, rest, rfl, ?_⟩
      rw [Prog.bind_run_ok]
      · rfl
      · rw [commDestroy_ready hc, Prog.bind_run_ok (commCall_answered hc hr hresult _)]
        rfl
  · exact .inl ⟨hc, Prog.bind_run_ok (commDestroy_closed hc)⟩

/-- A call of the hand-over that the server has not answered. -/
theorem spoken_waiting (hhello : Hello env results hello []) (hcalls : b.calls = hello)
    (hreplies : b.replies = []) (hlen : hello.length = results.length + 1) :
    Spoken env inputs results hello [] (.error .waiting, b) where
  opening := hhello
  taken := List.nil_prefix
  alive := by simp
  calls := .inl (by simpa [rpcsOf] using hcalls)
  once := by
    rw [hcalls]
    exact fun hmem => hhello.close_notMem (List.dropLast_subset _ hmem)
  replies := by simpa [rpcsOf, answers] using hreplies
  answered hw := absurd rfl hw
  waiting _ := by rw [hcalls, hlen]
  listening hl := by simp at hl

/-- The hand-over is over and the process goes on to `cleanup`. -/
theorem spoken_ready (hhello : Hello env results hello []) (hc : b.c = .ready)
    (hcalls : b.calls = hello)
    (hreplies : b.replies = []) (hresults : results.drop hello.length = b.results)
    (hlen : hello.length ≤ results.length) (hok : .crash ∉ results) (ret : Bool) :
    Spoken env inputs results hello [] (.ok ret, b) ∧ Held results (.ok ret, b) := by
  have htalk : Talk env (rpcsOf []) b (.ok ret, b) :=
    talk_nil (by simp) (by simp) hc rfl rfl rfl
  exact ⟨htalk.spoken hhello hcalls hreplies hresults hlen List.nil_prefix (by simp),
    htalk.held hhello hcalls hresults hlen hok⟩

theorem getServerCapabilities_waiting (hc : a.c = .ready) (hr : a.results = []) :
    getServerCapabilities a =
      (.error .waiting, { a with calls := a.calls ++ [.getSrvCpblts] }) :=
  Prog.bind_run_error (commCall_waiting hc hr _)

theorem getServerCapabilities_answered {rest : List CallResult} (hc : a.c = .ready)
    (hr : a.results = result :: rest) (hok : result ≠ .crash) :
    ∃ list, getServerCapabilities a =
        (.ok list, { a with calls := a.calls ++ [.getSrvCpblts], results := rest }) ∧
      ∀ capabilities, list = some capabilities → result = .cpblts (some capabilities) := by
  rw [getServerCapabilities, Prog.bind_run_ok (commCall_answered hc hr hok _)]
  cases result with
  | cpblts list => exact ⟨list, rfl, fun capabilities h => by rw [h]⟩
  | _ => exact ⟨none, rfl, by simp⟩

/-- The ways `session_info` can end: without a call, with a call that is not
answered yet, or with one that is. The call has what libnetconf says of the
session. -/
theorem sessionInfo_cases (env : Outside) (ncs : NcSession) (hc : a.c = .ready)
    (hok : .crash ∉ a.results) :
    sessionInfo env ncs a = (.ok false, a) ∨
    ∃ username sid cpblts, let call := .sessionInfoSend username sid cpblts env.pid
      (ncs.user = some username ∧ ncs.id = some sid ∧ ncs.cpblts = some cpblts) ∧
      ((a.results = [] ∧
          sessionInfo env ncs a = (.error .waiting, { a with calls := a.calls ++ [call] })) ∨
        ∃ result rest success, a.results = result :: rest ∧
          (success = true → result = .status true) ∧ sessionInfo env ncs a =
            (.ok success, { a with calls := a.calls ++ [call], results := rest })) := by
  obtain ⟨user, id, cpblts⟩ := ncs
  rcases user with - | username
  · exact .inl rfl
  rcases id with - | sid
  · exact .inl rfl
  rcases cpblts with - | cpblts
  · exact .inl rfl
  right
  refine ⟨username, sid, cpblts, ⟨rfl, rfl, rfl⟩, ?_⟩
  simp only [sessionInfo]
  cases hr : a.results with
  | nil =>
    left
    rw [Prog.bind_run_error (commCall_waiting hc hr _), hr]
    exact ⟨rfl, rfl⟩
  | cons result rest =>
    have hresult : result ≠ .crash := fun h => hok (by simp [hr, h])
    right
    rw [Prog.bind_run_ok (commCall_answered hc hr hresult _)]
    cases result with
    | status success => exact ⟨.status success, rest, success, rfl, fun h => by rw [h], rfl⟩
    | _ => exact ⟨_, rest, false, rfl, by simp, rfl⟩

/-- `main` after the capabilities of the server have come. -/
theorem body_after_cpblts (env : Outside) (inputs : List Comm.Agent.Input) {first : CallResult}
    {rest : List CallResult} (hok : .crash ∉ first :: rest) (list : Option (List String)) :
    let body : Act Bool :=
      match list with
      | none => pure false
      | some capabilities =>
        match env.accept capabilities with
        | none => pure false
        | some ncs => do if ← sessionInfo env ncs then mainLoop env inputs else pure false
    (∀ capabilities, list = some capabilities → first = .cpblts (some capabilities)) →
    ∃ hello used, Spoken env inputs (first :: rest) hello used
        (body ⟨.ready, false, rest, [.getSrvCpblts], []⟩) ∧
      Held (first :: rest) (body ⟨.ready, false, rest, [.getSrvCpblts], []⟩) := by
  have hfail : ∀ ret : Bool, ∃ hello used, Spoken env inputs (first :: rest) hello used
      (.ok ret, ⟨.ready, false, rest, [.getSrvCpblts], []⟩) ∧
      Held (first :: rest) (.ok ret, ⟨.ready, false, rest, [.getSrvCpblts], []⟩) := fun ret =>
    ⟨[.getSrvCpblts], [], spoken_ready .cpblts rfl rfl rfl rfl (by simp) hok ret⟩
  intro body hlist
  cases list with
  | none => exact hfail false
  | some capabilities =>
    cases haccept : env.accept capabilities with
    | none =>
      simp only [body, haccept]
      exact hfail false
    | some ncs =>
      have hrest : .crash ∉ rest := fun h => hok (List.mem_cons_of_mem _ h)
      obtain rfl := hlist capabilities rfl
      simp only [body, haccept]
      rcases sessionInfo_cases env ncs (a := ⟨.ready, false, rest, [.getSrvCpblts], []⟩) rfl
        hrest with
        hrun | ⟨username, sid, cpblts, hncs, ⟨hr, hrun⟩ | ⟨result, rest', success, hr, hyes,
          hrun⟩⟩
      · rw [Prog.bind_run_ok hrun]
        exact hfail false
      · rw [Prog.bind_run_error hrun]
        obtain rfl : rest = [] := hr
        have haccepted : Accepted env [.cpblts (some capabilities)] username sid cpblts :=
          ⟨capabilities, ncs, rfl, haccept, hncs⟩
        refine ⟨_, [], spoken_waiting (.session haccepted (by simp)) rfl rfl rfl, ?_⟩
        exact ⟨fun hw => absurd rfl hw, fun hw => absurd rfl hw⟩
      · rw [Prog.bind_run_ok hrun]
        obtain rfl : rest = result :: rest' := hr
        have haccepted : Accepted env (.cpblts (some capabilities) :: result :: rest')
            username sid cpblts := ⟨capabilities, ncs, rfl, haccept, hncs⟩
        cases success with
        | false =>
          exact ⟨_, [], spoken_ready (.session haccepted (by simp)) rfl rfl rfl rfl (by simp)
            hok false⟩
        | true =>
          have hrest' : .crash ∉ rest' := fun h => hrest (List.mem_cons_of_mem _ h)
          obtain ⟨used, htaken, htalk, hlisten⟩ := mainLoop_talk env inputs
            (a := ⟨.ready, false, rest', _, []⟩) rfl rfl hrest'
          have hhello : Hello env _ _ used :=
            .session haccepted fun _ => congrArg some (hyes rfl)
          exact ⟨_, used, htalk.spoken hhello rfl rfl rfl (by simp) htaken hlisten,
            htalk.held hhello rfl rfl (by simp) hok⟩

/-- `main` up to the label `cleanup`. -/
theorem mainBody_spoken (env : Outside) (inputs : List Comm.Agent.Input)
    (hok : .crash ∉ results) :
    ∃ hello used, Spoken env inputs results hello used (mainBody env inputs (.start results)) ∧
      Held results (mainBody env inputs (.start results)) := by
  have hnone : Spoken env inputs results [] [] (.ok false, .start results) ∧
      Held results (.ok false, .start results) :=
    ⟨⟨.none, List.nil_prefix, by simp, .inl rfl, by simp [Process.start], rfl, fun _ => rfl,
      by simp, by simp⟩, ⟨fun _ => ⟨hok, by simp [Process.start]⟩,
      fun _ => .inl ⟨by simp [Process.start], .inl rfl⟩⟩⟩
  unfold mainBody
  split
  · exact ⟨[], [], hnone⟩
  split
  · exact ⟨[], [], hnone⟩
  rw [Prog.bind_run_ok (Prog.update_run _ _)]
  cases results with
  | nil =>
    rw [Prog.bind_run_error (getServerCapabilities_waiting rfl rfl)]
    refine ⟨_, [], spoken_waiting .cpblts rfl rfl rfl, ?_⟩
    exact ⟨fun hw => absurd rfl hw, fun hw => absurd rfl hw⟩
  | cons first rest =>
    have hfirst : first ≠ .crash := fun h => hok (h ▸ List.mem_cons_self)
    obtain ⟨list, hrun, hlist⟩ := getServerCapabilities_answered
      (a := { Process.start (first :: rest) with c := .ready }) rfl rfl hfirst
    rw [Prog.bind_run_ok hrun]
    exact body_after_cpblts env inputs hok list hlist

/-- One more call, the close. -/
theorem Spoken.close {out : Except Stop Bool} {b b' : Process}
    (h : Spoken env inputs results hello used (.ok ret, b)) (hopen : .close ∉ b.calls)
    (hcalls : b'.calls = b.calls ++ [.close]) (hreplies : b'.replies = b.replies)
    (halive : out ≠ .error .crash) (hlisten : out ≠ .error .listening)
    (hwait : out = .error .waiting → b.calls.length = results.length) :
    Spoken env inputs results hello used (out, b') where
  opening := h.opening
  taken := h.taken
  alive := halive
  calls := by
    rcases h.calls with hcase | hcase
    · exact .inr (by rw [hcalls, hcase])
    · have hmem : .close ∈ b.calls := by
        rw [show b.calls = _ from hcase]
        exact List.mem_append_right _ List.mem_cons_self
      exact absurd hmem hopen
  once := by
    rw [hcalls, List.dropLast_concat]
    exact hopen
  replies := hreplies.trans h.replies
  answered _ := by
    rw [hreplies]
    exact h.answered (by simp)
  waiting hw := by simp [hcalls, hwait hw]
  listening hl := absurd hl hlisten

/-- What `main` does, up to any point. -/
theorem main_spoken (env : Outside) (inputs : List Comm.Agent.Input) (hok : .crash ∉ results) :
    ∃ hello used, Spoken env inputs results hello used (main env inputs (.start results)) := by
  obtain ⟨hello, used, hspoken, hheld⟩ := mainBody_spoken env inputs hok
  refine ⟨hello, used, ?_⟩
  cases hbody : mainBody env inputs (.start results) with
  | mk out b =>
    rw [hbody] at hspoken hheld
    cases out with
    | error e =>
      rw [main, Prog.bind_run_error hbody]
      exact hspoken
    | ok ret =>
      obtain ⟨hfresh, hlength⟩ := hheld.results (by simp)
      have hchan := hheld.chan (by simp)
      rcases main_of_body hbody hfresh with
        ⟨-, hrun⟩ | ⟨hc, hr, hrun⟩ | ⟨hc, result, rest, hr, hrun⟩ <;> rw [hrun]
      · exact hspoken
      · have hopen := (hchan.resolve_left (fun h => h.1 hc)).2
        have hall : b.calls.length + b.results.length = results.length := hlength
        rw [hr] at hall
        exact hspoken.close hopen rfl rfl (by simp) (by simp) (fun _ => hall)
      · have hopen := (hchan.resolve_left (fun h => h.1 hc)).2
        exact hspoken.close hopen rfl rfl (by simp) (by simp) (by simp)

/-- The last thing that `main` does is to close the channel, if there is one. -/
theorem main_closes (env : Outside) (inputs : List Comm.Agent.Input) (hok : .crash ∉ results)
    {ret : Bool} (h : (main env inputs (.start results)).1 = .ok ret) :
    (main env inputs (.start results)).2.calls = [] ∨
      (main env inputs (.start results)).2.calls.getLast? = some .close := by
  obtain ⟨-, -, -, hheld⟩ := mainBody_spoken env inputs hok
  cases hbody : mainBody env inputs (.start results) with
  | mk out b =>
    rw [hbody] at hheld
    cases out with
    | error e =>
      rw [main, Prog.bind_run_error hbody] at h
      simp at h
    | ok ret =>
      have hfresh := (hheld.results (by simp)).1
      rcases main_of_body hbody hfresh with
        ⟨hc, hrun⟩ | ⟨-, -, hrun⟩ | ⟨-, result, rest, -, hrun⟩ <;> rw [hrun] at h ⊢
      · exact ((hheld.chan (by simp)).resolve_right (fun hopen => hc hopen.1)).2
      · simp at h
      · exact .inr (by simp)

/-- Everything that a process asks for is granted; its client is the user with
the session. -/
def grantingOutside (user sid : String) (pid : Nat) : Outside where
  ncInit := true
  commInit := true
  accept _ := some ⟨some user, some sid, some ⟨["urn:base"], 0⟩⟩
  pid := pid
  builds _ := true

end OfConfig.Proofs
