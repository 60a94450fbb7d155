import Mathlib.Algebra.Group.Int.Defs
import Mathlib.Algebra.Group.Nat.Defs
import Mathlib.Logic.Function.Basic

/- The data model of libmp: requests, clients, the request pool and what the
   library can see of the hardware and of the CUDA streams.

   A request is named by its address (`Ptr`); the pool hands out addresses
   below `frontier`. The links `next` and `prev` are the ones of the source:
   one pair per request, threaded both by the free list and by the posted
   lists of the clients. Four components of `World` are not memory of the
   library: `cq` (per client and flow, the signaled work requests the HCA has
   accepted and whose completions have not been polled), `streams` (per CUDA
   stream, what is enqueued and not yet executed), `userWord` (32-bit words of
   the caller) and `log` (what happened, in order). `Request.owner` is not in
   the source either: it names the call that took the request from the pool.

   Out of the model: `mp_enable_ipc` (it is 0; with it set `mp_init` returns
   an error before any other call), `out.bad_sr` / `out.bad_rr` (never read)
   and failures of `malloc`. -/
namespace LibMp

/-- The address of a `struct mp_request`. -/
abbrev Ptr := Nat

/-- A CUDA stream. -/
abbrev Stream := Nat

/-- `mp_state_t`. -/
inductive State where
  | undef
  | prepared
  | pendingNowait
  | pending
  | complete
  deriving DecidableEq, Repr

/-- `mp_req_type_t`. -/
inductive ReqType where
  | null
  | send
  | recv
  | rdma
  deriving DecidableEq, Repr

/-- `mp_flow_t`. -/
inductive Flow where
  | tx
  | rx
  deriving DecidableEq, Repr

/-- The calls that take a request from the pool. -/
inductive Fn where
  | mpIsend
  | mpIrecv
  | mpIsendv
  | mpIrecvv
  | mpIput
  | mpIget
  | mpSendOnStream
  | mpIsendOnStream
  | mpIsendvOnStream
  | mpSendPrepare
  | mpSendvPrepare
  | mpPutPrepare
  | mpIputOnStream
  | mpIgetOnStream
  deriving DecidableEq, Repr

/-! Return codes: 0 is success. -/

def mpFailure : Int := 1
def enomem : Int := 12
def einval : Int := 22

/-! Flags of a put. -/

def mpPutInline : Nat := 1
def mpPutNowait : Nat := 2

/-- Whether `flags & MP_PUT_NOWAIT`. -/
def nowait (flags : Nat) : Bool := flags &&& mpPutNowait != 0

/-- Whether `flags & MP_PUT_INLINE`. -/
def inlined (flags : Nat) : Bool := flags &&& mpPutInline != 0

/-- `struct ibv_sge`. -/
structure Sge where
  addr : Nat
  length : Nat
  lkey : Nat
  deriving DecidableEq, Repr

/-- Which of the request's arrays a work request's `sg_list` points to. -/
inductive SgList where
  | sgEntry
  | udSgEntry
  | sgv
  deriving DecidableEq, Repr

/-- `exp_opcode`. `mp_iget` stores `IBV_WR_RDMA_READ`, `mp_iget_on_stream`
stores `IBV_EXP_WR_RDMA_READ`. -/
inductive Opcode where
  | expWrSend
  | expWrRdmaWrite
  | expWrRdmaRead
  | wrRdmaRead
  deriving DecidableEq, Repr

/-- The `wr` member of a send work request. -/
inductive Dest where
  | none
  | ud (ah remoteQpn remoteQkey : Nat)
  | rdma (remoteAddr rkey : Nat)
  deriving DecidableEq, Repr

/-- `gds_send_wr`; `signaled` and `inline` are its `exp_send_flags`. -/
structure SendWr where
  signaled : Bool
  inline : Bool
  opcode : Opcode
  wrId : Ptr
  numSge : Nat
  sgList : SgList
  dest : Dest
  deriving DecidableEq, Repr

/-- `struct ibv_recv_wr`. -/
structure RecvWr where
  wrId : Ptr
  numSge : Nat
  sgList : SgList
  deriving DecidableEq, Repr

/-- The union `in` of a request. -/
inductive InWr where
  | sr (wr : SendWr)
  | rr (wr : RecvWr)
  deriving DecidableEq, Repr

/-- The `wr_id` of a work request. -/
def InWr.wrId : InWr → Ptr
  | .sr wr => wr.wrId
  | .rr wr => wr.wrId

/-- Whether the HCA writes a completion for the work request: every receive,
and the signaled sends. -/
def InWr.signaled : InWr → Bool
  | .sr wr => wr.signaled
  | .rr _ => true

/-- `gds_send_request_t` as `gds_prepare_send` fills it: the client's queue
pair, the operation (`op` is its request id) and its work request. -/
structure SendInfo where
  client : Nat
  op : Nat
  wr : InWr
  deriving DecidableEq, Repr

/-- `gds_wait_request_t` as `gds_prepare_wait_cq` fills it: which fill this is
(`serial`), the queue it waits on and the operation it was filled for. -/
structure WaitInfo where
  serial : Nat
  client : Nat
  flow : Flow
  op : Nat
  deriving DecidableEq, Repr

/-- `struct mp_request`. `owner` names the call that holds the request, none
on the free list. -/
structure Request where
  type : ReqType := .null
  peer : Nat := 0
  status : State := .undef
  trigger : Bool := false
  id : Nat := 0
  flags : Nat := 0
  stream : Option Stream := none
  inWr : InWr := .rr ⟨0, 0, .sgEntry⟩
  sgEntry : Sge := ⟨0, 0, 0⟩
  udSgEntry : Sge × Sge := (⟨0, 0, 0⟩, ⟨0, 0, 0⟩)
  sgv : Option (List Sge) := none
  gdsSendInfo : Option SendInfo := none
  gdsWaitInfo : Option WaitInfo := none
  next : Option Ptr := none
  prev : Option Ptr := none
  owner : Option Fn := none

/-- `client_t`, the fields in use without IPC. The rank and the queue pair of
a client are fixed by `mp_init` and stand in `Config`. -/
structure Client where
  lastReqId : Nat := 0
  lastDoneId : Nat := 0
  lastPostedTriggerId : Flow → Nat := fun _ => 0
  lastPostedTrackedId : Flow → Nat := fun _ => 0
  lastTriggerId : Flow → Nat := fun _ => 0
  lastTrackedId : Flow → Nat := fun _ => 0
  postedStreamReq : Flow → Option Ptr := fun _ => none
  lastPostedStreamReq : Flow → Option Ptr := fun _ => none
  waitedStreamReq : Flow → Option Ptr := fun _ => none
  lastWaitedStreamReq : Flow → Option Ptr := fun _ => none

/-- `struct mp_reg`, as far as the posting functions read it. -/
structure Reg where
  key : Nat

/-- `struct mp_window`, per client index. -/
structure Window where
  basePtr : Nat → Nat
  rkey : Nat → Nat
  rsize : Nat → Nat

/-- What `mp_init` fixes: the environment variables it reads, and the clients
it makes, one for each entry of `peers`. -/
structure Config where
  useEventSync : Bool := false
  enableUd : Bool := false
  cqPollCount : Nat := 20
  ibMaxSge : Nat := 30
  peers : List Nat := []
  ah : Nat → Nat := fun _ => 0
  qpn : Nat → Nat := fun _ => 0
  udPadding : Nat := 0
  udPaddingKey : Nat := 0

/-- `client_count`. -/
def Config.clientCount (cfg : Config) : Nat := cfg.peers.length

/-- `client_index`: the loop of `mp_init` stores at each peer the index of its
last entry in `peers`; a rank that is not a peer has none (`bad_index`). -/
def clientIndexFrom : List Nat → Nat → Nat → Option Nat
  | [], _, _ => none
  | r :: rest, i, peer =>
    match clientIndexFrom rest (i + 1) peer with
    | some j => some j
    | none => if r = peer then some i else none

def Config.clientIndex (cfg : Config) (peer : Nat) : Option Nat := clientIndexFrom cfg.peers 0 peer

/-- `clients[i].mpi_rank`. -/
def Config.mpiRank (cfg : Config) (i : Nat) : Nat := cfg.peers.getD i 0

/-- A 32-bit word a stream can write or wait on. -/
inductive Word where
  | lastTriggerId (client : Nat) (flow : Flow)
  | lastTrackedId (client : Nat) (flow : Flow)
  | user (addr : Nat)
  deriving DecidableEq, Repr

/-- `gds_wait_cond_flag_t`. -/
inductive WaitCond where
  | geq
  | eq
  | and
  | nor
  deriving DecidableEq, Repr

/-- When a wait on a word holding `x` for the value `v` is over. A stream compares
for GEQ on the circle of 32-bit words: the same for words no more than 2^31 apart
(`streamGeq_eq_holds`). -/
def WaitCond.holds (x v : Nat) : WaitCond → Bool
  | .geq => v ≤ x
  | .eq => x == v
  | .and => x &&& v != 0
  | .nor => (2 ^ 32 - 1 - (x ||| v)) != 0

/-- One operation of a CUDA stream: 32-bit writes and waits, sends and waits
of libgdsync, and the caller's own work (`work`). -/
inductive StreamOp where
  | write (word : Word) (value : Nat)
  | wait (word : Word) (value : Nat) (cond : WaitCond)
  | queueSend (p : Ptr)
  | send (info : Option SendInfo)
  | waitCq (info : Option WaitInfo)
  | waitLastCq (client : Nat) (flow : Flow)
  | work (tag : Nat)
  deriving DecidableEq, Repr

/-- `gds_descriptor_t` of a descriptor queue: sends and waits point to the
infos of a request. -/
inductive Desc where
  | send (p : Ptr)
  | wait (p : Ptr)
  | waitValue32 (addr value : Nat) (cond : WaitCond)
  | writeValue32 (addr value : Nat)
  deriving DecidableEq, Repr

/-- A stream: how many operations it has executed and those it has not. -/
structure Queue where
  done : Nat := 0
  todo : List StreamOp := []

/-- How many operations were ever enqueued. -/
def Queue.count (q : Queue) : Nat := q.done + q.todo.length

/-- An accepted signaled work request: its `wr_id`, and the id of the
operation that posted it. -/
structure Wr where
  wrId : Ptr
  op : Nat
  deriving DecidableEq, Repr

/-- What happened. -/
inductive LogEv where
  /-- `gds_prepare_send` took the operation's work request -/
  | prepared (client : Nat) (p : Ptr) (op : Nat)
  /-- the HCA accepted the operation's work request -/
  | accepted (client : Nat) (flow : Flow) (p : Ptr) (op : Nat)
  /-- its completion was polled and processed -/
  | polled (client : Nat) (flow : Flow) (p : Ptr) (op : Nat)
  /-- the request was appended to the client's posted list, by a call on `s` -/
  | tracked (client : Nat) (p : Ptr) (op : Nat) (s : Stream)
  /-- the posted list handed the request to `gds_post_send`, which took it;
  `trig` is `last_trigger_id` at that time -/
  | handed (client : Nat) (p : Ptr) (op : Nat) (trig : Nat)
  /-- a wait info was given to the HCA or to a stream -/
  | given (p : Ptr) (op : Nat) (info : Option WaitInfo)
  /-- the request went back to the free list -/
  | released (p : Ptr) (peer : Nat) (op : Nat)
  /-- operation number `k` of stream `s` was executed -/
  | ran (s : Stream) (k : Nat) (op : StreamOp)
  /-- a stream wait on the request returned 0: `k` operations were enqueued on `s` by then -/
  | waited (client : Nat) (flow : Flow) (p : Ptr) (op : Nat) (s : Stream) (k : Nat)
  deriving DecidableEq, Repr

/-- The state of one process and of what it talks to. -/
structure World where
  mem : Ptr → Request
  frontier : Nat
  /-- the regions on `mem_region_list`, each named by its first address -/
  memRegionList : List Ptr
  mpRequestFreeList : Option Ptr
  clients : Nat → Client
  cq : Nat → Flow → List Wr
  streams : Stream → Queue
  userWord : Nat → Nat
  /-- the descriptor queues of the caller -/
  descQueues : Nat → List Desc
  /-- how many wait infos `gds_prepare_wait_cq` has filled -/
  fills : Nat
  log : List LogEv

/-- Why a call does not come back. -/
inductive Stop where
  /-- `assert(req->status == MP_PREPARED)` and its like -/
  | assertStatus
  /-- an assertion on the type of a request -/
  | assertType
  /-- `assert(client->last_tracked_id[flow] < req->id)` -/
  | assertTracked
  /-- an assertion on the links of a list -/
  | assertLinks
  /-- `assert(client->last_req_id < UINT_MAX)` -/
  | assertReqId
  /-- `assert(displ < window->rsize[client_id])` -/
  | assertDispl
  /-- an assertion on the flags of a wait -/
  | assertFlags
  /-- the `exit(-1)` on a completion of a request that is not pending -/
  | exitStatus
  /-- `client_index[peer]` is `bad_index` -/
  | badPeer
  /-- the call is still in a loop when its answers end -/
  | spinning
  deriving DecidableEq, Repr

/-- What the GPU does: a stream executes its next operation, or a value is
written to `last_trigger_id[TX_FLOW]` of a client at another time than the
order of the streams has it. -/
inductive Gpu where
  | run (s : Stream)
  | store (client value : Nat)
  deriving DecidableEq, Repr

/-- One answer of the outside: the return code of a call, whether the time
limit of a waiting loop has passed, which completions a poll returns (indices
into what is outstanding), what the GPU does meanwhile. -/
structure Ans where
  rc : Int := 0
  late : Bool := false
  picks : List Nat := []
  gpu : List Gpu := []

/-- A process with the answers it will get. After the last one every call
succeeds, nothing completes and no stream runs. -/
structure Sys where
  w : World
  tape : List Ans

/-! ## Updates -/

namespace World
variable (w : World)

/-- Assign fields of the request at `p`. -/
def setReq (p : Ptr) (g : Request → Request) : World :=
  { w with mem := Function.update w.mem p (g (w.mem p)) }

/-- Assign fields of `clients[i]`. -/
def setClient (i : Nat) (g : Client → Client) : World :=
  { w with clients := Function.update w.clients i (g (w.clients i)) }

def addLog (e : LogEv) : World := { w with log := w.log ++ [e] }

/-- Append operations to a stream. -/
def enqueue (s : Stream) (ops : List StreamOp) : World :=
  { w with streams := Function.update w.streams s ⟨(w.streams s).done, (w.streams s).todo ++ ops⟩ }

def word : Word → Nat
  | .lastTriggerId c f => (w.clients c).lastTriggerId f
  | .lastTrackedId c f => (w.clients c).lastTrackedId f
  | .user a => w.userWord a

/-- A stream stores `v` into a word. -/
def setWord (v : Nat) : Word → World
  | .lastTriggerId c f => w.setClient c fun cl =>
      { cl with lastTriggerId := Function.update cl.lastTriggerId f v }
  | .lastTrackedId c f => w.setClient c fun cl =>
      { cl with lastTrackedId := Function.update cl.lastTrackedId f v }
  | .user a => { w with userWord := Function.update w.userWord a v }

/-- Whether a stream can execute `op` now. -/
def ready : StreamOp → Bool
  | .wait word v cond => cond.holds (w.word word) v
  | _ => true

/-- The effect of executing `op`. -/
def effect : StreamOp → World
  | .write word v => w.setWord v word
  | _ => w

/-- Move the first operation of stream `s` from the enqueued to the executed. -/
def shift (s : Stream) : World :=
  { w with streams := Function.update w.streams s ⟨(w.streams s).done + 1, (w.streams s).todo.tail⟩ }

/-- Stream `s` executes its next operation, if there is one and it is ready. -/
def gpuStep (s : Stream) : World :=
  match (w.streams s).todo with
  | [] => w
  | op :: _ =>
    if w.ready op then ((w.shift s).effect op).addLog (.ran s (w.streams s).done op) else w

def gpu : Gpu → World
  | .run s => w.gpuStep s
  | .store c v => w.setWord v (.lastTriggerId c .tx)

end World

/-! ## The predicates of mp_internal.h -/

/-- `req_type_tx`. -/
def ReqType.tx (t : ReqType) : Bool := t = .send || t = .rdma

/-- `req_type_rx`. -/
def ReqType.rx (t : ReqType) : Bool := t = .recv

/-- `mp_type_to_flow`, past its assertion that the type is not `MP_NULL`. -/
def ReqType.flow (t : ReqType) : Flow := if t.tx then .tx else .rx

/-- `req_can_be_waited`. -/
def Request.canBeWaited (r : Request) : Bool :=
  r.type.rx || (r.type.tx && !nowait r.flags)

end LibMp
