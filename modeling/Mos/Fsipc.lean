import Mos.KernelRun
import Mos.UserWindow

/-!
# A client of the file server

An env in `fsipc` of `user/lib/fsipc.c`, the file server in `serve` of `fs/serv.c`,
and any other envs. Each makes its system calls on the one kernel whenever it has
the processor. `fsipc` does not look at who answered, so history variables keep
apart what the messages were: the requests of the client are numbered, and for
each env it is recorded what the last message it took was.
-/

namespace Mos

/-- What `fsipc` is called with. -/
structure FsRequest where
  type : Word
  fsreq : Word
  dstva : Word

/-- What the server sends with `ipc_send`. -/
structure FsReply where
  value : Word
  srcva : Word
  perm : Word

/-- Where the client is. -/
inductive FsipcPc
  /-- Not in `fsipc`. -/
  | idle
  /-- In `ipc_send`, before `syscall_ipc_try_send`. -/
  | send (rq : FsRequest)
  /-- In `ipc_send`, before `syscall_yield`. -/
  | yield (rq : FsRequest)
  /-- In `ipc_recv`, before `syscall_ipc_recv`. -/
  | recv (rq : FsRequest)
  /-- In `syscall_ipc_recv`. -/
  | wait (rq : FsRequest)
  /-- `user_assert` or `user_panic`. -/
  | dead

/-- Where the file server is. While it serves the env `whom` it has `replies` left to
send; `request` is the number of the request if it is one of the client. -/
inductive ServePc
  /-- Before `syscall_ipc_recv`. -/
  | listen
  /-- In `syscall_ipc_recv`. -/
  | wait
  | reply (whom : Word) (request : Option Nat) (replies : List FsReply)
  /-- In `ipc_send`, before `syscall_yield`. -/
  | yield (whom : Word) (request : Option Nat) (replies : List FsReply)
  | dead

/-- What a message was. -/
inductive Note
  | request (number : Nat)
  | answer (request : Option Nat) (reply : FsReply)
  | stray

/-- The last message an env took, and the entry for its `env_ipc_dstva` that the message
left it with. -/
structure Took where
  note : Note
  entry : Option Word

structure FsWorld where
  kernel : Kernel
  client : FsipcPc
  server : ServePc
  /-- How many requests of the client were delivered. -/
  asked : Nat
  took : EnvIx → Took

/-- The file server is the second env. -/
abbrev fsEnv : EnvIx := 1

/-- `REQVA`. -/
def reqva : Word := 0x0ffff000#32

/-- `e` took a message. -/
def Delivers (k k' : Kernel) (e : EnvIx) : Prop :=
  (k.envs e).envIpcRecving ≠ 0 ∧ (k'.envs e).envIpcRecving = 0

instance (k k' : Kernel) (e : EnvIx) : Decidable (Delivers k k' e) :=
  inferInstanceAs (Decidable (_ ∧ _))

/-- The entry for the page that `e` asked to have mapped. -/
def Kernel.ipcEntry (k : Kernel) (e : EnvIx) : Option Word :=
  pteAt k.pm.mem (k.envs e).envPgdir (k.envs e).envIpcDstva

/-- A system call of `x`. -/
structure Calls (k : Kernel) (x : EnvIx) (call : SysCall) (k' : Kernel) (r : Ret) : Prop where
  current : k.curenv = some x
  legal : call.PermLegal
  exec : call.exec k = .ok (k', r)
  bounded : Bounded k'

/-- The kernel goes on to `k'`; who takes a message then, takes `note`. -/
def FsWorld.next (w : FsWorld) (k' : Kernel) (note : Note) : FsWorld :=
  { w with
    kernel := k'
    took := fun e => if Delivers w.kernel k' e then ⟨note, k'.ipcEntry e⟩ else w.took e }

/-- `ipc_send` of the client after its system call. -/
def FsipcPc.sent (rq : FsRequest) : Ret → FsipcPc
  | .ok _ => .recv rq
  | .error .ipcNotRecv => .yield rq
  | .error _ => .dead

/-- `ipc_send` of the server after its system call. -/
def ServePc.sent (whom : Word) (request : Option Nat) (reply : FsReply)
    (replies : List FsReply) : Ret → ServePc
  | .ok _ => .reply whom request replies
  | .error .ipcNotRecv => .yield whom request (reply :: replies)
  | .error _ => .dead

/-- The number of the request that the server has taken, if the client sent it. -/
def FsWorld.heard (w : FsWorld) : Option Nat :=
  match (w.took fsEnv).note with
  | .request n => some n
  | _ => none

/-- A system call on the memory of the caller or its children. -/
def EnvCall.OnMemory : EnvCall → Prop
  | .memAlloc .. | .memMap .. | .memUnmap .. => True
  | _ => False

inductive FsMove
  | trap (tf : Trapframe)
  | tick
  /-- The client calls `fsipc`. -/
  | call (rq : FsRequest)
  /-- It makes the next system call of `fsipc`, or returns. -/
  | client
  /-- The server makes its next system call. -/
  | server
  /-- It returns from `ipc_recv`, and will send these replies. -/
  | hear (replies : List FsReply)
  /-- It has sent them all. -/
  | done
  /-- Another env sends a message, which `taker` takes. -/
  | send (whom value srcva perm : Word) (taker : Option EnvIx)
  | recv (dstva : Word)
  | yield
  | memory (call : EnvCall)

/-- One move. The replies to a request can be any; `serve_open` sends two when
`open_alloc` fails, `serve` none to a request it does not know. -/
inductive fsStep (c : EnvIx) : FsWorld → FsMove → FsWorld → Prop
  | trap {w : FsWorld} (tf : Trapframe) :
      fsStep c w (.trap tf) (w.next { w.kernel with kstackTf := tf } .stray)
  | tick {w : FsWorld} {k' : Kernel} (exec : schedule w.kernel false = .ok k')
      (bounded : Bounded k') : fsStep c w .tick (w.next k' .stray)
  | call {w : FsWorld} {rq : FsRequest} (pc : w.client = .idle) :
      fsStep c w (.call rq) { w with client := .send rq }
  | clientSend {w : FsWorld} {k' : Kernel} {r : Ret} {rq : FsRequest} (pc : w.client = .send rq)
      (sys : Calls w.kernel c
        (.ipcTrySend (w.kernel.envs fsEnv).envId rq.type rq.fsreq pteD) k' r) :
      fsStep c w .client { w.next k' (.request (w.asked + 1)) with
        client := .sent rq r
        asked := if Delivers w.kernel k' fsEnv then w.asked + 1 else w.asked }
  | clientYield {w : FsWorld} {k' : Kernel} {r : Ret} {rq : FsRequest} (pc : w.client = .yield rq)
      (sys : Calls w.kernel c .yield k' r) :
      fsStep c w .client { w.next k' .stray with client := .send rq }
  | clientRecv {w : FsWorld} {k' : Kernel} {r : Ret} {rq : FsRequest} (pc : w.client = .recv rq)
      (sys : Calls w.kernel c (.ipcRecv rq.dstva) k' r) :
      fsStep c w .client
        { w.next k' .stray with client := if r = .ok 0 then .wait rq else .dead }
  | clientReturn {w : FsWorld} {rq : FsRequest} (pc : w.client = .wait rq)
      (current : w.kernel.curenv = some c) : fsStep c w .client { w with client := .idle }
  | serverRecv {w : FsWorld} {k' : Kernel} {r : Ret} (pc : w.server = .listen)
      (sys : Calls w.kernel fsEnv (.ipcRecv reqva) k' r) :
      fsStep c w .server { w.next k' .stray with server := if r = .ok 0 then .wait else .dead }
  | hear {w : FsWorld} (replies : List FsReply) (pc : w.server = .wait)
      (current : w.kernel.curenv = some fsEnv) :
      fsStep c w (.hear replies)
        { w with server := .reply (w.kernel.envs fsEnv).envIpcFrom w.heard replies }
  | serverSend {w : FsWorld} {k' : Kernel} {r : Ret} {whom : Word} {request : Option Nat}
      {reply : FsReply} {replies : List FsReply}
      (pc : w.server = .reply whom request (reply :: replies))
      (sys : Calls w.kernel fsEnv (.ipcTrySend whom reply.value reply.srcva reply.perm) k' r) :
      fsStep c w .server
        { w.next k' (.answer request reply) with server := .sent whom request reply replies r }
  | serverYield {w : FsWorld} {k' : Kernel} {r : Ret} {whom : Word} {request : Option Nat}
      {replies : List FsReply} (pc : w.server = .yield whom request replies)
      (sys : Calls w.kernel fsEnv .yield k' r) :
      fsStep c w .server { w.next k' .stray with server := .reply whom request replies }
  | done {w : FsWorld} {whom : Word} {request : Option Nat}
      (pc : w.server = .reply whom request []) :
      fsStep c w .done { w with server := .listen }
  | send {w : FsWorld} {k' : Kernel} {r : Ret} {x : EnvIx} {whom value srcva perm : Word}
      {taker : Option EnvIx} (other : x ≠ c ∧ x ≠ fsEnv)
      (sys : Calls w.kernel x (.ipcTrySend whom value srcva perm) k' r)
      (takes : ∀ e, taker = some e ↔ Delivers w.kernel k' e) :
      fsStep c w (.send whom value srcva perm taker) (w.next k' .stray)
  | recv {w : FsWorld} {k' : Kernel} {r : Ret} {x : EnvIx} {dstva : Word}
      (other : x ≠ c ∧ x ≠ fsEnv) (sys : Calls w.kernel x (.ipcRecv dstva) k' r) :
      fsStep c w (.recv dstva) (w.next k' .stray)
  | yield {w : FsWorld} {k' : Kernel} {r : Ret} {x : EnvIx} (other : x ≠ c ∧ x ≠ fsEnv)
      (sys : Calls w.kernel x .yield k' r) : fsStep c w .yield (w.next k' .stray)
  | memory {w : FsWorld} {k' : Kernel} {r : Ret} {x : EnvIx} {call : EnvCall}
      (onMemory : call.OnMemory) (stranger : w.client = .idle ∨ ¬ w.kernel.Family c)
      (sys : Calls w.kernel x (.env call) k' r) : fsStep c w (.memory call) (w.next k' .stray)

/-- The client begins outside `fsipc`, the server before or in `ipc_recv`. -/
structure FsBegins (c : EnvIx) (w : FsWorld) : Prop where
  client : w.client = .idle
  notServer : c ≠ fsEnv
  clientUsed : c ∉ w.kernel.envFreeList
  serverUsed : fsEnv ∉ w.kernel.envFreeList
  clientIdle : (w.kernel.envs c).envIpcRecving = 0
  server : w.server = .listen ∧ (w.kernel.envs fsEnv).envIpcRecving = 0 ∨
    w.server = .wait ∧ (w.kernel.envs fsEnv).envIpcRecving ≠ 0 ∧
      (w.kernel.envs fsEnv).envStatus = .notRunnable ∧ w.kernel.curenv ≠ some fsEnv

/-- What the client finds when it returns from `fsipc` is what the server sent in answer
to this request: the value, the sender and the permission, and the entry of the page. -/
def Answered (c : EnvIx) (w : FsWorld) : Prop :=
  ∃ reply entry, w.took c = ⟨.answer (some w.asked) reply, entry⟩ ∧
    (w.kernel.envs c).envIpcValue = reply.value ∧
    (w.kernel.envs c).envIpcFrom = (w.kernel.envs fsEnv).envId ∧
    (w.kernel.envs c).envIpcPerm = pteV ||| reply.perm ∧ w.kernel.ipcEntry c = entry

/-- A message of an env that is not the file server reaches the client. -/
def FsMove.Intrudes (c : EnvIx) : FsMove → Prop
  | .send _ _ _ _ taker => taker = some c
  | _ => False

end Mos
