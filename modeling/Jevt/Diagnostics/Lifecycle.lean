import Jevt.Diagnostics.Response
import Jevt.Library.Run
import Mathlib.Logic.Function.Basic

/-!
# Starting and stopping the diagnostics server

`start`, `stop` and `accept_loop` of `src/http_server.cpp`, one atomic operation or system call a
step. A call of `start` or `stop` is part of the state from the moment it has `lifecycle_mutex`
(`Call`), the accept thread is at one of the places of its loop (`Worker`), and every step carries
what the system answers. Descriptors are numbers that the kernel gives out again once they are
closed, to the server or to the rest of the process (`Owner`).

Whatever the interleaving, the server shuts down, closes, reads and writes only descriptors that it
has open (`Lawful`), and a call of `stop` that has returned has left nothing behind
(`lifecycle_safe`).
-/

namespace Jevt.HttpServer

open Library

/-! ## The machine -/

/-- The descriptor of a socket. -/
abbrev Socket := Nat

/-- `HttpServerOptions`. -/
structure HttpServerOptions where
  bindAddress : Bytes := lit "127.0.0.1"
  port : Nat := 0
  listenBacklog : Int := 16
  maxRequestBytes : Nat := 16 * 1024
  deriving DecidableEq

/-- The exceptions of `start`. A system error has the text in front of that of its code. -/
inductive Exception where
  | logicError (what : Bytes)
  | invalidArgument (what : Bytes)
  | systemError (what : Bytes)
  deriving DecidableEq

/-- How a call ends. -/
inductive Outcome where
  | started
  | stopped
  | threw (e : Exception)
  deriving DecidableEq

/-- Who has a descriptor open. -/
inductive Owner where
  | server
  | process
  deriving DecidableEq

/-- Where the call is that holds `lifecycle_mutex`: what it does next. -/
inductive Call where
  /-- `start` loads `is_running` and checks the limit. -/
  | start (requested : HttpServerOptions)
  | create (requested : HttpServerOptions)
  /-- `inet_pton`, `bind`, `listen` and `getsockname`. -/
  | bind (requested : HttpServerOptions) (created : Socket)
  | storeOptions (requested : HttpServerOptions) (created : Socket) (port : Nat)
  | storePort (created : Socket) (port : Nat)
  | storeSocket (created : Socket)
  | storeRunning
  | spawn
  /-- `stop` exchanges `is_running`. -/
  | stop
  | takeSocket
  | shutdown (socket : Socket)
  | close (socket : Socket)
  | lockClient
  /-- Under `client_mutex`. -/
  | shutdownClient
  | join
  | clearPort
  deriving DecidableEq

/-- Where `handle` is. -/
inductive Handle where
  /-- At the condition of the reading loop, then in `wait_ready`. -/
  | reading (request : Bytes)
  | receiving (request : Bytes)
  /-- Behind the loop, at the load of `is_running`. -/
  | answering (request : Bytes)
  /-- At the condition of the loop of `send_all`, then in `wait_ready`. The texts are to be sent. -/
  | sending (texts : List Bytes)
  | writing (texts : List Bytes)
  deriving DecidableEq

/-- Where the accept thread is: what it does next. -/
inductive Worker where
  /-- The condition of the loop. -/
  | loop
  | load
  | accept (listening : Socket)
  /-- Behind a failed `accept`, at the load of `is_running`. -/
  | rejected
  /-- Ahead of `client_mutex`. -/
  | accepted (client : Socket)
  /-- Under `client_mutex`, at the load of `is_running`. -/
  | entering (client : Socket)
  /-- Under `client_mutex`. -/
  | registering (client : Socket)
  /-- At `nonblocking`. -/
  | configuring (client : Socket)
  | serving (client : Socket) (h : Handle)
  /-- Ahead of `client_mutex`. -/
  | leaving (client : Socket)
  /-- Under `client_mutex`. -/
  | clearing (client : Socket)
  /-- Under `client_mutex`. -/
  | closing (client : Socket)
  | ended
  deriving DecidableEq

/-- The members of `HttpServer::Impl`, the place of the call that holds `lifecycle_mutex`, the
kernel's table of descriptors, and how the last call ended. A worker of `none` is a thread that is
not joinable. -/
structure Server where
  kDashboard : Bytes
  options : HttpServerOptions := {}
  listenSocket : Option Socket := none
  isRunning : Bool := false
  boundPort : Nat := 0
  activeClient : Option Socket := none
  clientLocked : Bool := false
  worker : Option Worker := none
  call : Option Call := none
  owner : Socket → Option Owner
  last : Option Outcome := none

/-- What the system answers to an operation. -/
inductive Answer where
  | ok
  /-- The operation fails, or `wait_ready` gives up. -/
  | fails
  | socket (created : Socket)
  /-- `inet_pton` does not take the address. -/
  | notIPv4
  /-- `getsockname` fails. -/
  | unnamed
  | bound (port : Nat)
  | recv (turn : Turn)
  | send (sending : Sending)
  /-- What the registry exports. -/
  | exports (toJson toPrometheus : Bytes)
  deriving DecidableEq

/-- The calls. -/
inductive Request where
  | start (requested : HttpServerOptions)
  | stop
  deriving DecidableEq

/-- A step: a call gets `lifecycle_mutex`, the call or the accept thread goes on, or the rest of the
process opens or closes a descriptor. -/
inductive Step where
  | call (request : Request)
  | caller (answer : Answer)
  | worker (answer : Answer)
  | opens (fd : Socket)
  | closes (fd : Socket)
  deriving DecidableEq

namespace Server

/-- A descriptor gets another owner, or none. -/
def assign (s : Server) (fd : Socket) (o : Option Owner) : Server :=
  { s with owner := Function.update s.owner fd o }

/-- The call goes on. -/
def goes (s : Server) (c : Call) : Server :=
  { s with call := some c }

/-- The call returns and gives the mutex back. -/
def returns (s : Server) (o : Outcome) : Server :=
  { s with call := none, last := some o }

/-- The thread goes on. -/
def turns (s : Server) (w : Worker) : Server :=
  { s with worker := some w }

/-- The next operation of the call. -/
def callStep (s : Server) : Call → Answer → Option Server
  | .start requested, .ok =>
    if s.isRunning then
      some (s.returns (.threw (.logicError (lit "HTTP diagnostics server is already running"))))
    else if requested.maxRequestBytes < 64 then
      some (s.returns (.threw (.invalidArgument (lit "max_request_bytes must be at least 64"))))
    else some (s.goes (.create requested))
  | .create _, .fails => some (s.returns (.threw (.systemError (lit "socket"))))
  | .create requested, .socket created =>
    if s.owner created = none then some ((s.assign created (some .server)).goes
      (.bind requested created))
    else none
  | .bind _ created, .notIPv4 =>
    some ((s.assign created none).returns
      (.threw (.invalidArgument (lit "bind_address must be an IPv4 address"))))
  | .bind _ created, .fails =>
    some ((s.assign created none).returns (.threw (.systemError (lit "bind/listen"))))
  | .bind _ created, .unnamed =>
    some ((s.assign created none).returns (.threw (.systemError (lit "getsockname"))))
  | .bind requested created, .bound port =>
    if port = 0 then none else some (s.goes (.storeOptions requested created port))
  | .storeOptions requested created port, .ok =>
    some ({ s with options := requested }.goes (.storePort created port))
  | .storePort created port, .ok => some ({ s with boundPort := port }.goes (.storeSocket created))
  | .storeSocket created, .ok => some ({ s with listenSocket := some created }.goes .storeRunning)
  | .storeRunning, .ok => some ({ s with isRunning := true }.goes .spawn)
  | .spawn, .ok => some ((s.turns .loop).returns .started)
  | .spawn, .fails => some (s.returns (.threw (.systemError [])))
  | .stop, .ok =>
    if s.isRunning then some ({ s with isRunning := false }.goes .takeSocket)
    else some (s.returns .stopped)
  | .takeSocket, .ok =>
    some ({ s with listenSocket := none }.goes
      (match s.listenSocket with
        | some socket => .shutdown socket
        | none => .lockClient))
  | .shutdown socket, .ok => some (s.goes (.close socket))
  | .close socket, .ok => some ((s.assign socket none).goes .lockClient)
  | .lockClient, .ok =>
    if s.clientLocked then none
    else some ({ s with clientLocked := true }.goes .shutdownClient)
  | .shutdownClient, .ok => some ({ s with clientLocked := false }.goes .join)
  | .join, .ok =>
    if s.worker = none ∨ s.worker = some .ended then
      some ({ s with worker := none }.goes .clearPort)
    else none
  | .clearPort, .ok => some ({ s with boundPort := 0 }.returns .stopped)
  | _, _ => none

/-- The next operation of `handle`, or `none` behind its end. -/
def handleStep (s : Server) : Handle → Answer → Option (Option Handle)
  | .reading request, .ok =>
    if Unfinished s.options.maxRequestBytes request then
      if s.isRunning then some (some (.receiving request)) else none
    else some (some (.answering request))
  | .reading request, .fails =>
    if Unfinished s.options.maxRequestBytes request then some (some (.answering request)) else none
  | .receiving request, .recv (.data bytes) =>
    if bytes ≠ [] ∧ bytes.length ≤ remaining s.options.maxRequestBytes request then
      some (some (.reading (request ++ bytes)))
    else none
  | .receiving request, .recv .retry => some (some (.reading request))
  | .receiving request, .recv .abort => some (some (.answering request))
  | .answering request, .exports toJson toPrometheus =>
    if s.isRunning then
      let r := respond ⟨s.options.maxRequestBytes, toJson, toPrometheus, s.kDashboard⟩ request
      some (some (.sending [header r, r.body]))
    else some none
  | .answering _, .fails => some none
  | .sending [], .ok => some none
  | .sending ([] :: texts), .ok => some (some (.sending texts))
  | .sending (text :: texts), .ok =>
    if s.isRunning then some (some (.writing (text :: texts))) else none
  | .sending ((_ :: _) :: _), .fails => some none
  | .writing (text :: texts), .send (.sent count) =>
    if count = 0 then some none else some (some (.sending (text.drop count :: texts)))
  | .writing texts, .send .retry => some (some (.sending texts))
  | .writing _, .send .abort => some none
  | _, _ => none

/-- The next operation of the accept thread. -/
def workerStep (s : Server) : Worker → Answer → Option Server
  | .loop, .ok => some (s.turns (if s.isRunning then .load else .ended))
  | .load, .ok =>
    some (s.turns (match s.listenSocket with
      | some listening => .accept listening
      | none => .ended))
  | .accept _, .fails => some (s.turns .rejected)
  | .accept listening, .socket client =>
    if s.owner listening ≠ none ∧ s.owner client = none then
      some ((s.assign client (some .server)).turns (.accepted client))
    else none
  | .rejected, .ok => some (s.turns (if s.isRunning then .loop else .ended))
  | .accepted client, .ok =>
    if s.clientLocked then none
    else some ({ s with clientLocked := true }.turns (.entering client))
  | .entering client, .ok =>
    if s.isRunning then some (s.turns (.registering client))
    else some (({ s with clientLocked := false }.assign client none).turns .ended)
  | .registering client, .ok =>
    some ({ s with activeClient := some client, clientLocked := false }.turns (.configuring client))
  | .configuring client, .ok => some (s.turns (.serving client (.reading [])))
  | .configuring client, .fails => some (s.turns (.leaving client))
  | .serving client h, answer =>
    match s.handleStep h answer with
    | some (some h) => some (s.turns (.serving client h))
    | some none => some (s.turns (.leaving client))
    | none => none
  | .leaving client, .ok =>
    if s.clientLocked then none
    else some ({ s with clientLocked := true }.turns (.clearing client))
  | .clearing client, .ok => some ({ s with activeClient := none }.turns (.closing client))
  | .closing client, .ok =>
    some (({ s with clientLocked := false }.assign client none).turns .loop)
  | _, _ => none

/-- One step. -/
def step (s : Server) : Step → Option Server
  | .call request =>
    if s.call = none then
      some (s.goes (match request with
        | .start requested => .start requested
        | .stop => .stop))
    else none
  | .caller answer => s.call.bind fun c => s.callStep c answer
  | .worker answer => s.worker.bind fun w => s.workerStep w answer
  | .opens fd => if s.owner fd = none then some (s.assign fd (some .process)) else none
  | .closes fd => if s.owner fd = some .process then some (s.assign fd none) else none

/-! ## What holds of every reachable state -/

end Server

/-- The descriptor that a call has in its hands. -/
def Call.socket : Call → Option Socket
  | .bind _ created => some created
  | .storeOptions _ created _ => some created
  | .storePort created _ => some created
  | .storeSocket created => some created
  | .shutdown socket => some socket
  | .close socket => some socket
  | _ => none

/-- A call that is inside `client_mutex`. -/
def Call.locks : Call → Bool
  | .shutdownClient => true
  | _ => false

/-- The descriptor that the thread has in its hands. -/
def Worker.client : Worker → Option Socket
  | .accepted client => some client
  | .entering client => some client
  | .registering client => some client
  | .configuring client => some client
  | .serving client _ => some client
  | .leaving client => some client
  | .clearing client => some client
  | .closing client => some client
  | _ => none

/-- The descriptor that the thread has stored in `active_client`. -/
def Worker.active : Worker → Option Socket
  | .configuring client => some client
  | .serving client _ => some client
  | .leaving client => some client
  | .clearing client => some client
  | _ => none

/-- A thread that is inside `client_mutex`. -/
def Worker.locks : Worker → Bool
  | .entering _ => true
  | .registering _ => true
  | .clearing _ => true
  | .closing _ => true
  | _ => false

/-- What `handle` has read. -/
def Handle.buffer : Handle → Bytes
  | .reading request => request
  | .receiving request => request
  | .answering request => request
  | _ => []

/-- What `handle` has to send. -/
def Handle.texts : Handle → List Bytes
  | .sending texts => texts
  | .writing texts => texts
  | _ => []

namespace Server

/-- The descriptors that the server remembers: the listener, that of the call, and the client. -/
def holdings (s : Server) : List Socket :=
  s.listenSocket.toList ++ (s.call.bind Call.socket).toList ++
    (s.worker.bind Worker.client).toList

/-- No thread, no socket, no port. -/
structure Clean (s : Server) : Prop where
  isRunning : s.isRunning = false
  listenSocket : s.listenSocket = none
  activeClient : s.activeClient = none
  boundPort : s.boundPort = 0
  worker : s.worker = none

/-- The members between two calls. -/
def Settled (s : Server) : Prop :=
  if s.isRunning then s.listenSocket ≠ none ∧ s.boundPort ≠ 0 else s.Clean

/-- The members at each place of a call. -/
def Staged (s : Server) : Prop :=
  match s.call with
  | none | some (.start _) | some .stop => s.Settled
  | some (.create _) | some (.bind _ _) => s.Clean
  | some (.storeOptions _ _ port) | some (.storePort _ port) => s.Clean ∧ port ≠ 0
  | some (.storeSocket _) =>
    s.isRunning = false ∧ s.listenSocket = none ∧ s.worker = none ∧ s.boundPort ≠ 0
  | some .storeRunning =>
    s.isRunning = false ∧ s.listenSocket ≠ none ∧ s.worker = none ∧ s.boundPort ≠ 0
  | some .spawn =>
    s.isRunning = true ∧ s.listenSocket ≠ none ∧ s.worker = none ∧ s.boundPort ≠ 0
  | some .takeSocket => s.isRunning = false ∧ s.listenSocket ≠ none
  | some (.shutdown _) | some (.close _) | some .lockClient | some .shutdownClient | some .join =>
    s.isRunning = false ∧ s.listenSocket = none
  | some .clearPort => s.isRunning = false ∧ s.listenSocket = none ∧ s.worker = none

/-- The number that the thread is about to accept on is that of the listener, or a call of `stop`
has taken it. -/
def Listens (s : Server) : Prop :=
  ∀ listening, s.worker = some (.accept listening) →
    s.listenSocket = some listening ∨ s.call = some (.shutdown listening) ∨
      s.call = some (.close listening) ∨
      s.call ∈ [some .lockClient, some .shutdownClient, some .join]

/-- The server has open what it remembers, each descriptor once. -/
structure Held (s : Server) : Prop where
  owned : ∀ fd, s.owner fd = some .server ↔ fd ∈ s.holdings
  nodup : s.holdings.Nodup

/-- `client_mutex` has one holder. -/
structure Locked (s : Server) : Prop where
  locked : s.clientLocked = (s.call.any Call.locks || s.worker.any Worker.locks)
  alone : (s.call.any Call.locks && s.worker.any Worker.locks) = false

/-- What the call knows: the members at its place, and what a call of `stop` has left. -/
structure Placed (s : Server) : Prop where
  staged : s.Staged
  last : s.call = none → s.last = some .stopped → s.Clean

/-- What the thread knows: its client is the active one, it accepts on the listener, and it does not
end while the server runs. -/
structure Accepting (s : Server) : Prop where
  active : s.activeClient = s.worker.bind Worker.active
  listens : s.Listens
  ended : s.isRunning = true → s.worker ≠ some .ended

/-- The buffer of the thread is inside the limit, and it sends headers and body at most. -/
def Buffered (s : Server) : Prop :=
  ∀ client h, s.worker = some (.serving client h) →
    h.buffer.length ≤ s.options.maxRequestBytes ∧ h.texts.length ≤ 2

/-- **The invariant.** -/
structure Sound (s : Server) : Prop where
  held : s.Held
  locked : s.Locked
  placed : s.Placed
  accepting : s.Accepting
  buffered : s.Buffered

/-! ## Every step keeps it -/

variable {s t : Server} {c : Call} {w : Worker} {a : Answer}

/-- A call opens the listener, closes it, or hands it on. -/
theorem Held.callStep (h : s.Held) (hplaced : s.Placed) (hcall : s.call = some c)
    (hstep : s.callStep c a = some t) : t.Held := by
  obtain ⟨howned, hnodup⟩ := h
  obtain ⟨hstaged, -⟩ := hplaced
  unfold holdings at howned hnodup
  unfold Staged at hstaged
  rw [hcall] at howned hnodup hstaged
  unfold Server.callStep at hstep
  (repeat' split at hstep) <;> cases hstep <;> constructor <;>
    dsimp only [holdings, returns, goes, turns, assign] <;>
    first
    | exact howned
    | exact hnodup
    | grind [Settled, Clean, Function.update, Option.bind, Call.socket, Worker.client]

/-- The thread opens its client, closes it, or hands it on. -/
theorem Held.workerStep (h : s.Held) (hworker : s.worker = some w)
    (hstep : s.workerStep w a = some t) : t.Held := by
  obtain ⟨howned, hnodup⟩ := h
  unfold holdings at howned hnodup
  rw [hworker] at howned hnodup
  unfold Server.workerStep at hstep
  (repeat' split at hstep) <;> cases hstep <;> constructor <;>
    dsimp only [holdings, turns, assign] <;>
    first
    | exact howned
    | exact hnodup
    | grind [Function.update, Option.bind, Call.socket, Worker.client]

/-- The thread takes `client_mutex` when it is free, and gives it back. -/
theorem Locked.workerStep (h : s.Locked) (hworker : s.worker = some w)
    (hstep : s.workerStep w a = some t) : t.Locked := by
  obtain ⟨hlocked, halone⟩ := h
  rw [hworker] at hlocked halone
  unfold Server.workerStep at hstep
  (repeat' split at hstep) <;> cases hstep <;> constructor <;>
    dsimp only [turns, assign] <;>
    grind [Option.any, Call.locks, Worker.locks]

/-- A server that runs has a listener. -/
theorem Placed.listens (h : s.Placed) (hrunning : s.isRunning = true) : s.listenSocket ≠ none := by
  have hstaged := h.staged
  unfold Staged at hstaged
  split at hstaged <;> grind [Settled, Clean]

/-- The call knows nothing that the thread changes. -/
theorem Placed.of_eq (h : s.Placed) (hworker : s.worker ≠ none) (hcall : t.call = s.call)
    (hlast : t.last = s.last) (hrunning : t.isRunning = s.isRunning)
    (hlisten : t.listenSocket = s.listenSocket) (hport : t.boundPort = s.boundPort) : t.Placed := by
  obtain ⟨hstaged, hstopped⟩ := h
  have hunclean : ¬s.Clean := fun hclean => hworker hclean.worker
  refine ⟨?_, fun hnone hsome => absurd (hstopped (hcall ▸ hnone) (hlast ▸ hsome)) hunclean⟩
  unfold Staged Settled at hstaged ⊢
  rw [hcall, hrunning, hlisten, hport]
  split at hstaged <;> simp_all

/-- The thread leaves it as it is. -/
theorem Placed.workerStep (h : s.Placed) (hworker : s.worker = some w)
    (hstep : s.workerStep w a = some t) : t.Placed := by
  have hne : s.worker ≠ none := by simp [hworker]
  unfold Server.workerStep at hstep
  (repeat' split at hstep) <;> cases hstep <;> exact h.of_eq hne rfl rfl rfl rfl rfl

/-- The thread finds the listener as long as the server runs. -/
theorem Accepting.workerStep (h : s.Accepting) (hplaced : s.Placed) (hworker : s.worker = some w)
    (hstep : s.workerStep w a = some t) : t.Accepting := by
  have hrunning := hplaced.listens
  obtain ⟨hactive, hlistens, hended⟩ := h
  unfold Listens at hlistens
  rw [hworker] at hactive hlistens hended
  unfold Server.workerStep at hstep
  (repeat' split at hstep) <;> cases hstep <;> constructor <;>
    dsimp only [Listens, turns, assign] <;>
    first
    | exact hactive
    | exact rfl
    | (rintro _ ⟨⟩; done)
    | grind

/-- A call takes `client_mutex` when it is free, and gives it back. -/
theorem Locked.callStep (h : s.Locked) (hplaced : s.Placed) (hcall : s.call = some c)
    (hstep : s.callStep c a = some t) : t.Locked := by
  obtain ⟨hlocked, halone⟩ := h
  obtain ⟨hstaged, -⟩ := hplaced
  unfold Staged at hstaged
  rw [hcall] at hlocked halone hstaged
  unfold Server.callStep at hstep
  (repeat' split at hstep) <;> cases hstep <;> constructor <;>
    dsimp only [returns, goes, turns, assign] <;>
    grind [Option.any, Call.locks, Worker.locks]

/-- What the members are at the next place of a call. -/
theorem Placed.callStep (h : s.Placed) (hacc : s.Accepting) (hcall : s.call = some c)
    (hstep : s.callStep c a = some t) : t.Placed := by
  obtain ⟨hstaged, hlast⟩ := h
  have hactive := hacc.active
  unfold Staged at hstaged
  rw [hcall] at hstaged hlast
  unfold Server.callStep at hstep
  (repeat' split at hstep) <;> cases hstep <;> constructor <;>
    dsimp only [Staged, returns, goes, turns, assign] <;>
    grind [Settled, Clean, Option.bind]

/-- A call of `stop` takes the listener away from the thread, and waits for its end. -/
theorem Accepting.callStep (h : s.Accepting) (hplaced : s.Placed) (hcall : s.call = some c)
    (hstep : s.callStep c a = some t) : t.Accepting := by
  obtain ⟨hstaged, -⟩ := hplaced
  obtain ⟨hactive, hlistens, hended⟩ := h
  unfold Staged at hstaged
  unfold Listens at hlistens
  rw [hcall] at hstaged hlistens
  unfold Server.callStep at hstep
  (repeat' split at hstep) <;> cases hstep <;> constructor <;>
    dsimp only [Listens, returns, goes, turns, assign] <;>
    first
    | exact hactive
    | exact hended
    | (intro listening hworker; have hold := hlistens listening hworker; simp_all)
    | grind [Worker.active]

/-- The limit is that of the start as long as there is a thread. -/
theorem Buffered.callStep (h : s.Buffered) (hplaced : s.Placed) (hcall : s.call = some c)
    (hstep : s.callStep c a = some t) : t.Buffered := by
  obtain ⟨hstaged, -⟩ := hplaced
  unfold Staged at hstaged
  rw [hcall] at hstaged
  unfold Buffered at h
  unfold Server.callStep at hstep
  (repeat' split at hstep) <;> cases hstep <;> intro client handle <;>
    dsimp only [returns, goes, turns, assign] <;>
    grind [Clean]

/-- One operation of `handle` reads what fits. -/
theorem buffer_handleStep {h h' : Handle} (hfit : h.buffer.length ≤ s.options.maxRequestBytes)
    (hstep : s.handleStep h a = some (some h')) :
    h'.buffer.length ≤ s.options.maxRequestBytes := by
  unfold handleStep at hstep
  (repeat' split at hstep) <;> cases hstep <;> dsimp only [Handle.buffer] at hfit ⊢
  all_goals try assumption
  all_goals try exact Nat.zero_le _
  case _ bytes hbytes => exact length_append_le hfit hbytes.2

/-- One operation of `handle` does not send more texts than two. -/
theorem texts_handleStep {h h' : Handle} (htexts : h.texts.length ≤ 2)
    (hstep : s.handleStep h a = some (some h')) : h'.texts.length ≤ 2 := by
  unfold handleStep at hstep
  (repeat' split at hstep) <;> cases hstep <;> dsimp only [Handle.texts] at htexts ⊢ <;>
    first
    | exact htexts
    | exact Nat.zero_le _
    | exact le_rfl
    | exact (Nat.le_succ _).trans htexts

/-- The thread keeps to the limit. -/
theorem Buffered.workerStep (h : s.Buffered) (hworker : s.worker = some w)
    (hstep : s.workerStep w a = some t) : t.Buffered := by
  have hbuffer := @buffer_handleStep s a
  have htexts := @texts_handleStep s a
  unfold Buffered at h
  rw [hworker] at h
  unfold Server.workerStep at hstep
  (repeat' split at hstep) <;> cases hstep <;> intro client handle <;>
    dsimp only [turns, assign] <;>
    grind [Handle.buffer, Handle.texts]

/-- A call that gets the mutex finds what the last one left. -/
theorem Sound.call (h : s.Sound) {request : Request} (hstep : s.step (.call request) = some t) :
    t.Sound := by
  obtain ⟨⟨howned, hnodup⟩, ⟨hlocked, halone⟩, ⟨hstaged, -⟩, ⟨hactive, hlistens, hended⟩,
    hbuffered⟩ := h
  unfold Staged at hstaged
  unfold Listens at hlistens
  unfold holdings at howned hnodup
  unfold step at hstep
  dsimp only at hstep
  split_ifs at hstep with hcall
  rw [hcall] at hstaged howned hnodup hlocked halone hlistens
  cases hstep
  have hsettled : (s.goes (match request with
      | .start requested => .start requested
      | .stop => .stop)).Staged := by
    cases request <;> grind [Staged, goes, Settled, Clean]
  refine ⟨?_, ?_, ⟨hsettled, nofun⟩,
    ⟨hactive, fun listening hw => .inl ?_, hended⟩, hbuffered⟩
  any_goals cases request
  · exact ⟨howned, hnodup⟩
  · exact ⟨howned, hnodup⟩
  · exact ⟨hlocked, halone⟩
  · exact ⟨hlocked, halone⟩
  · simpa [goes] using hlistens listening hw
  · simpa [goes] using hlistens listening hw

/-- The rest of the process opens and closes its own descriptors. -/
theorem Sound.process (h : s.Sound) {fd : Socket} {o : Option Owner}
    (hown : s.owner fd ≠ some .server) (ho : o ≠ some .server) : (s.assign fd o).Sound := by
  obtain ⟨hstaged, hlast⟩ := h.placed
  unfold Staged at hstaged
  have hclean : s.Clean → (s.assign fd o).Clean := fun ⟨hr, hl, ha, hp, hw⟩ => ⟨hr, hl, ha, hp, hw⟩
  have hplaced : (s.assign fd o).Placed := by
    refine ⟨?_, fun hcall hstopped => hclean (hlast hcall hstopped)⟩
    unfold Staged
    dsimp only [assign] at hclean ⊢
    split at hstaged <;> grind [Settled]
  refine ⟨⟨fun fd' => ?_, h.held.nodup⟩, ⟨h.locked.locked, h.locked.alone⟩, hplaced,
    ⟨h.accepting.active, h.accepting.listens, h.accepting.ended⟩, h.buffered⟩
  show Function.update s.owner fd o fd' = _ ↔ fd' ∈ s.holdings
  rw [← h.held.owned, Function.update_apply]
  split_ifs with heq
  · rw [heq]
    exact iff_of_false ho hown
  · rfl

/-- **Every step keeps the invariant.** -/
theorem Sound.step (h : s.Sound) {l : Step} (hstep : s.step l = some t) : t.Sound := by
  cases l with
  | call request => exact h.call hstep
  | caller answer =>
    obtain ⟨c, hcall, hstep⟩ := Option.bind_eq_some_iff.1 hstep
    exact ⟨h.held.callStep h.placed hcall hstep, h.locked.callStep h.placed hcall hstep,
      h.placed.callStep h.accepting hcall hstep, h.accepting.callStep h.placed hcall hstep,
      h.buffered.callStep h.placed hcall hstep⟩
  | worker answer =>
    obtain ⟨w, hworker, hstep⟩ := Option.bind_eq_some_iff.1 hstep
    exact ⟨h.held.workerStep hworker hstep, h.locked.workerStep hworker hstep,
      h.placed.workerStep hworker hstep, h.accepting.workerStep h.placed hworker hstep,
      h.buffered.workerStep hworker hstep⟩
  | opens fd =>
    unfold Server.step at hstep
    dsimp only at hstep
    split_ifs at hstep with hfree
    obtain rfl := Option.some.inj hstep
    exact h.process (by simp [hfree]) (by simp)
  | closes fd =>
    unfold Server.step at hstep
    dsimp only at hstep
    split_ifs at hstep with hown
    obtain rfl := Option.some.inj hstep
    exact h.process (by simp [hown]) (by simp)

/-! ## What the server does to descriptors -/

/-- The descriptors that a step of the server hands to the system, but for that of `accept`. -/
def uses (s : Server) : Step → List Socket
  | .caller _ =>
    match s.call with
    | some .shutdownClient => s.activeClient.toList
    | some c => c.socket.toList
    | none => []
  | .worker _ => (s.worker.bind Worker.client).toList
  | _ => []

/-- The descriptors in use are those that are remembered. -/
theorem Sound.uses (h : s.Sound) {l : Step} {fd : Socket} (hfd : fd ∈ s.uses l) :
    s.owner fd = some .server := by
  have hactive : ∀ client, s.activeClient = some client →
      s.worker.bind Worker.client = some client := by
    intro client hclient
    rw [h.accepting.active] at hclient
    obtain ⟨w, hw, hclient⟩ := Option.bind_eq_some_iff.1 hclient
    rw [hw, Option.bind_some]
    cases w <;> first | exact hclient | cases hclient
  rw [h.held.owned, holdings, List.mem_append, List.mem_append]
  unfold Server.uses at hfd
  split at hfd
  · split at hfd
    · exact .inr (Option.mem_toList.2 (hactive fd (Option.mem_toList.1 hfd)))
    · next c _ hcall => exact .inl (.inr (by rwa [hcall, Option.bind_some]))
    · cases hfd
  · exact .inr hfd
  · cases hfd

/-- A server that has not been started. -/
def fresh (kDashboard : Bytes) (owner : Socket → Option Owner) : Server :=
  { kDashboard, owner }

/-- A server that has not been started is sound. -/
theorem sound_fresh {kDashboard : Bytes} {owner : Socket → Option Owner}
    (howner : ∀ fd, owner fd ≠ some .server) : (fresh kDashboard owner).Sound :=
  ⟨⟨fun fd => iff_of_false (howner fd) (by simp [fresh, holdings]), by simp [fresh, holdings]⟩,
    ⟨rfl, rfl⟩, ⟨⟨rfl, rfl, rfl, rfl, rfl⟩, nofun⟩, ⟨rfl, nofun, nofun⟩, nofun⟩

/-- Every state of every run is sound. -/
theorem sound_of_run {kDashboard : Bytes} {owner : Socket → Option Owner}
    (howner : ∀ fd, owner fd ≠ some .server) {ls : List Step} {s : Server}
    (h : Run step (fresh kDashboard owner) ls s) : s.Sound :=
  Run.invariant (P := fun _ => True) (fun _ _ _ hs _ hstep => hs.step hstep) (fun _ _ => trivial)
    (sound_fresh howner) h

end Server

end Jevt.HttpServer
