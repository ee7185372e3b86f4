import OfConfig.Netconf
import OfConfig.Xml.Node

/-!
# `OfConfig.Sshd`: the SSH daemon of the server

`netconf-server-transapi.c`: the server listens for NETCONF clients through an
SSH daemon that it starts itself. libnetconf calls the module when the
configuration below `/netconf/ssh/listen` changes; the leaves come before
`listen`.

`Module` has the variables of the module and what is outside of it: the
environment, the configuration file of the daemon, and the daemons that the
module has started. The module does not wait for its daemons. One that has got
SIGTERM goes on for a while, so its end is an event of its own
(`Event.ended`), as is the end of one that nobody has told to end.
-/

set_option autoImplicit false

namespace OfConfig.Sshd

open OfConfig.Xml

/-- `XMLDIFF_OP` -/
inductive DiffOp where
  | none
  | add
  | rem
  | mod
  | chain
  | sibling
  | reorder
deriving DecidableEq, Repr

/-- The signals that are sent. -/
inductive Signal where
  | hup
  | term
deriving DecidableEq, Repr

/-- The module and the world around it. -/
structure Module where
  /-- `sshd_pid`, of type `u_int16_t` -/
  sshdPid : Nat
  /-- `sshd_listen` -/
  sshdListen : Option String
  /-- the environment variable `SSHDPID_ENV` -/
  pidEnv : Option String
  /-- the file `SSHDRUNNING` -/
  config : Option String
  /-- the daemons that are running and have not got SIGTERM -/
  running : List Nat
  /-- the daemons that have got SIGTERM and have not ended yet -/
  ending : List Nat
  /-- the daemons that were started -/
  started : List Nat
  /-- the signals that were delivered -/
  signals : List (Nat × Signal)

/-- The module when it is loaded. -/
def Module.load : Module where
  sshdPid := 0
  sshdListen := none
  pidEnv := none
  config := none
  running := []
  ending := []
  started := []
  signals := []

/-- kill(2) on a process of the module. The call may fail, and then nobody gets
the signal. A daemon that gets SIGTERM is about to end. -/
def kill (success : Bool) (pid : Nat) (sig : Signal) (m : Module) : Module :=
  if success then
    match sig with
    | .hup => { m with signals := m.signals ++ [(pid, .hup)] }
    | .term =>
      { m with signals := m.signals ++ [(pid, .term)]
               ending := m.ending ++ m.running.filter (· = pid)
               running := m.running.filter (· ≠ pid) }
  else m

/-- `kill_sshd`. What kill returns is not looked at: the process id is forgotten
in any case. -/
def killSshd (success : Bool) (m : Module) : Module :=
  if m.sshdPid ≠ 0 then
    { kill success m.sshdPid .term m with sshdPid := 0, pidEnv := none }
  else m

/-- The error of the callbacks for the leaves. -/
def internalError : NcErr :=
  { tag := .opFailed, msg := some "ietf-netconf-server module internal error" }

/-- The error of the callback for `listen`. -/
def unableToStart : NcErr :=
  { tag := .opFailed,
    msg := some ("ietf-netconf-server module internal error - " ++
      "unable to start SSH server.") }

/-- `callback_srv_netconf_srv_ssh_srv_listen_oneport`; `memory` says whether
asprintf succeeds. -/
def listenOneport (memory : Bool) (op : DiffOp) (new : Node) (m : Module) : Reply × Module :=
  if op = .rem then (.success, m)
  else if memory then
    let port := nodeGetContent new
    let text := "Port " ++ port ++ "\nListenAddress 0.0.0.0\nListenAddress ::"
    (.success, { m with sshdListen := some text })
  else (.failure (some internalError), { m with sshdListen := none })

/-- The content of the first element of a name. -/
def firstLeaf (cs : List Node) (name : String) : Option String :=
  (cs.find? (fun c => c.label.isElement && c.label.name = name)).map nodeGetContent

/-- `callback_srv_netconf_srv_ssh_srv_listen_manyports`. A leaf that is missing is
printed as a null pointer. -/
def listenManyports (memory : Bool) (op : DiffOp) (new : Node) (m : Module) : Reply × Module :=
  if op = .rem then (.success, m)
  else if memory then
    let addr := (firstLeaf new.children "address").getD "(null)"
    let port := (firstLeaf new.children "port").getD "(null)"
    let text := m.sshdListen.getD "" ++ "ListenAddress " ++ addr ++ ":" ++ port ++ "\n"
    (.success, { m with sshdListen := some text })
  else (.failure (some internalError), { m with sshdListen := none })

/-- What the system answers to the callback for `listen`. -/
structure System where
  /-- the file `sshd_config`, if it can be opened -/
  template : Option String
  /-- can the file `SSHDRUNNING` be created? -/
  create : Bool
  /-- does fstat succeed? -/
  stat : Bool
  /-- does sendfile succeed? -/
  copy : Bool
  /-- the process that fork makes -/
  fork : Option Nat
  /-- does kill succeed? -/
  kill : Bool

/-- The end of the callback for `listen`: the daemon is told to read its
configuration again, or started. -/
def startSshd (sys : System) (m : Module) : Reply × Module :=
  if m.sshdPid ≠ 0 then (.success, kill sys.kill m.sshdPid .hup m)
  else
    match sys.fork with
    | none => (.failure (some unableToStart), m)
    | some pid =>
      let sshdPid := pid % 65536
      (.success, { m with sshdPid := sshdPid
                          pidEnv := some (toString sshdPid)
                          running := m.running ++ [pid]
                          started := m.started ++ [pid] })

/-- `callback_srv_netconf_srv_ssh_srv_listen` -/
def listen (sys : System) (op : DiffOp) (m : Module) : Reply × Module :=
  if op = .rem then (.success, killSshd sys.kill m)
  else
    match sys.template with
    | none => (.failure (some unableToStart), m)
    | some template =>
      if !sys.create then (.failure (some unableToStart), m)
      -- opening the file has made it empty
      else if !(sys.stat && sys.copy) then
        (.failure (some unableToStart), { m with config := some "" })
      else
        startSshd sys
          { m with config := some (template ++ "\n# NETCONF listening settings\n" ++
                     m.sshdListen.getD "(null)")
                   sshdListen := none }

/-- The element `port` of the default configuration. -/
def defaultPort : Node := elem "port" (some "urn:ietf:params:xml:ns:yang:ietf-netconf-server")
  [txt "830"]

/-- `server_transapi_init`; `enabled` says whether the features `ssh` and
`inbound-ssh` are. -/
def serverTransapiInit (enabled memory : Bool) (sys : System) (m : Module) : Reply × Module :=
  if !enabled then (.success, m)
  else
    let r := listenOneport memory .add defaultPort m
    match r.1 with
    | .success =>
      let r' := listen sys .add r.2
      match r'.1 with
      | .success => (.success, r'.2)
      | _ => (.failure none, r'.2)
    | _ => (.failure none, r.2)

/-- `server_transapi_close` -/
def serverTransapiClose (success : Bool) (m : Module) : Module := killSshd success m

/-! ### Runs -/

/-- What can happen to the module. -/
inductive Event where
  | init (enabled memory : Bool) (sys : System)
  | oneport (memory : Bool) (op : DiffOp) (new : Node)
  | manyports (memory : Bool) (op : DiffOp) (new : Node)
  | listen (sys : System) (op : DiffOp)
  | close (kill : Bool)
  | ended (pid : Nat)

/-- The module after an event. -/
def step (m : Module) : Event → Module
  | .init enabled memory sys => (serverTransapiInit enabled memory sys m).2
  | .oneport memory op new => (listenOneport memory op new m).2
  | .manyports memory op new => (listenManyports memory op new m).2
  | .listen sys op => (listen sys op m).2
  | .close success => serverTransapiClose success m
  | .ended pid =>
    { m with running := m.running.filter (· ≠ pid), ending := m.ending.filter (· ≠ pid) }

/-- The module after a sequence of events. -/
def run (es : List Event) : Module := es.foldl step .load

end OfConfig.Sshd
