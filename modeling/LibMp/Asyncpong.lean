import LibMp.PingpongCalls
import LibMp.StreamPosts

/- `async_exchange` of comm_pingpong.cpp on all ranks of a job.

   In each iteration a rank posts a receive for every other rank, and on its
   stream the put that tells it so; then, on the stream, the wait for every other
   rank to be ready and the message to it, the waits for all receives and those
   for all sends; and it progresses. The CPU waits for nothing, so it may be any
   number of iterations ahead of the stream.

   What the CPU posts on the stream are doorbells: a put is taken with the call
   (`MP_PUT_INLINE`) but leaves only when the stream rings for it (`held`). The
   HCA takes receives and sends in the order of the posts (`recvq`, `sendq`), and
   the stream passes the wait for one of them when its message has arrived. Which
   completions a poll of the CPU finds, and when, does not matter to the stream
   and is left open.

   The stream runs in the order of the posts, and by itself as the CPU does in
   `sync_exchange`: the job refines the same exchange (`Exchange`), with what the
   streams have done in the place of the calls. -/
namespace LibMp

/-! ## The calls of an iteration -/

inductive AsyncOp where
  | irecv (peer : Nat)
  | sendReady (peer : Nat)
  | waitReady (peer : Nat)
  | isend (peer : Nat)
  | waitRecvs
  | waitSends
  | progress
  deriving DecidableEq, Repr

/-- What `async_exchange` does for each peer, on rank `r` of `n`. -/
def asyncPosts (n r : Nat) : List AsyncOp :=
  ((commPeers n r).flatMap fun peer => [.irecv peer, .sendReady peer]) ++
    (commPeers n r).flatMap fun peer => [.waitReady peer, .isend peer]

/-- `async_exchange`. -/
def asyncExchange (n r : Nat) : List AsyncOp := asyncPosts n r ++ [.waitRecvs, .waitSends, .progress]

/-! ## The job -/

/-- A rank: its process, the place in its iterations, the requests in
`recv_requests` and `send_requests`, the receives and sends it has posted for
each peer (by their ids, in order), the puts for each peer that are posted and
not rung for, and how much of its stream has run. -/
structure AsyncRank where
  comm : Comm
  pos : Place AsyncOp
  recvs : List Ptr
  sends : List Ptr
  recvq : Nat → List Nat
  sendq : Nat → List Nat
  held : Nat → List Put
  ran : Nat

/-- What is on the stream, and what was. -/
def AsyncRank.ops (k : AsyncRank) : List StreamOp := (k.comm.sys.w.streams 0).todo

/-- The ranks, the puts in flight, and how many messages have left and how many
have arrived, by sender and receiver. -/
structure AsyncState where
  rank : Nat → AsyncRank
  flying : List Put
  sent : Nat → Nat → Nat
  arrived : Nat → Nat → Nat
  log : List ReadyEv

namespace Asyncpong
variable (pp : Pingpong) (s : AsyncState)

/-- The calls of an iteration of rank `r`. -/
def body (r : Nat) : List AsyncOp := asyncExchange pp.job.size r

/-- Every rank has come back from `comm_init`. -/
def start : AsyncState where
  rank r := ⟨Comm.init, .start (body pp r), [], [], fun _ => [], fun _ => [], fun _ => [], 0⟩
  flying := []
  sent _ _ := 0
  arrived _ _ := 0
  log := []

/-- The call of COMM behind a step of `async_exchange`, and the request it
stores. The stream is the default one. -/
def call (r : Nat) (k : AsyncRank) : AsyncOp → CM (Option Ptr)
  | .irecv peer => do
    return (← commIrecv (pp.job.comm r) (pp.recvBuf r peer) pp.maxSize .char (pp.rreg r + 8 * peer) peer).2
  | .sendReady peer => do return (← commSendReadyOnStream (pp.job.comm r) peer 0).2
  | .waitReady peer => do
    let _ ← commWaitReadyOnStream (pp.job.comm r) peer 0
    return none
  | .isend peer => do
    return (← commIsendOnStream (pp.job.comm r) (pp.sendBuf r peer) pp.maxSize .char (pp.sreg r + 8 * peer) peer 0).2
  | .waitRecvs => do
    let _ ← commWaitAllOnStream (pp.job.comm r) k.recvs 0
    return none
  | .waitSends => do
    let _ ← commWaitAllOnStream (pp.job.comm r) k.sends 0
    return none
  | .progress => do
    let _ ← commProgress (pp.job.comm r)
    return none

/-- The puts a call posts. -/
def puts (r : Nat) : AsyncOp → List Put
  | .sendReady peer => (pp.job.put (s.rank r).comm.ready r peer (sentCount s.log r peer + 1)).toList
  | _ => []

/-- The id of the operation a call has posted. -/
def posted (x : Option Ptr) (c : Comm) : List Nat := x.toList.map fun q => (c.sys.w.mem q).id

/-- Rank `r` after a call that has stored `x`, posted the puts `ps` and left `c`.
The requests are not looked at again once they were waited for. -/
def rankAfter (r : Nat) (k : AsyncRank) (op : AsyncOp) (x : Option Ptr) (ps : List Put) (c : Comm) : AsyncRank where
  comm := c
  pos := k.pos.next (body pp r)
  recvs := match op with
    | .irecv _ => k.recvs ++ x.toList
    | .waitRecvs => []
    | _ => k.recvs
  sends := match op with
    | .isend _ => k.sends ++ x.toList
    | .waitSends => []
    | _ => k.sends
  recvq := match op with
    | .irecv peer => Function.update k.recvq peer (k.recvq peer ++ posted x c)
    | _ => k.recvq
  sendq := match op with
    | .isend peer => Function.update k.sendq peer (k.sendq peer ++ posted x c)
    | _ => k.sendq
  held := match op with
    | .sendReady peer => Function.update k.held peer (k.held peer ++ ps)
    | _ => k.held
  ran := k.ran

/-- What a call adds to the log of the ready protocol. -/
def events (r : Nat) : AsyncOp → List ReadyEv
  | .sendReady peer => [.sent r peer]
  | .waitReady peer => [.took r peer]
  | _ => []

def afterCall (r : Nat) (op : AsyncOp) (x : Option Ptr) (c : Comm) : AsyncState := { s with
  rank := Function.update s.rank r (rankAfter pp r (s.rank r) op x (puts pp s r op) c)
  log := s.log ++ events r op }

/-- Whether the HCA of rank `r` has completed the operation of a wait: no wait is
for a put. -/
def completed (r : Nat) (info : WaitInfo) : Bool :=
  let peer := (pp.job.comm r).mp.mpiRank info.client
  match info.flow with
  | .rx => info.op ∈ ((s.rank r).recvq peer).take (s.arrived peer r)
  | .tx => info.op ∈ ((s.rank r).sendq peer).take (s.arrived r peer)

/-- The doorbell of a put: the first one that is held for its peer leaves. -/
def ringPut (r peer : Nat) : Option AsyncState :=
  match (s.rank r).held peer with
  | [] => none
  | p :: rest => some { s with
    rank := Function.update s.rank r { s.rank r with held := Function.update (s.rank r).held peer rest }
    flying := s.flying ++ [p] }

/-- What the stream of rank `r` does with an operation; none if it has to wait. A
program that posts other operations is not modelled. -/
def exec (r : Nat) : StreamOp → Option AsyncState
  | .queueSend q =>
    let req := (s.rank r).comm.sys.w.mem q
    match req.type with
    | .rdma => ringPut s r req.peer
    | .send => some { s with sent := setAt s.sent r req.peer (s.sent r req.peer + 1) }
    | _ => none
  | .wait (.user addr) v .geq =>
    if streamGeq ((s.rank r).comm.ready.readyTable ((addr - pp.job.tableAt r) / 4)) v then some s else none
  | .waitCq (some info) => if completed pp s r info then some s else none
  | _ => none

/-- The stream of rank `r` has run one more operation. -/
def tick (r : Nat) : AsyncState := { s with
  rank := Function.update s.rank r { s.rank r with ran := (s.rank r).ran + 1 } }

/-- Put `i` arrives. -/
def afterPut (i : Nat) (p : Put) : AsyncState := { s with
  rank := Function.update s.rank p.dst { s.rank p.dst with
    comm := { (s.rank p.dst).comm with
      ready := (s.rank p.dst).comm.ready.store (pp.job.tableAt p.dst) p.addr p.value } }
  flying := s.flying.eraseIdx i
  log := s.log ++ [.delivered p.src p.dst p.no] }

/-- A message from `a` arrives at `b`. -/
def afterMessage (a b : Nat) : AsyncState := { s with arrived := setAt s.arrived a b (s.arrived a b + 1) }

/-- A call of a rank comes back, a stream runs an operation, a put arrives, or a
message does; a message needs a receive that was posted for it. While a call runs
no stream does, which is no restriction: a call does not look at them. -/
inductive Step : AsyncState → Prop where
  | call {r op rest tape x c} : r < pp.job.size → (s.rank r).pos.round < pp.totIters →
      (s.rank r).pos.todo = op :: rest → Succeeds tape → Still tape →
      call pp r (s.rank r) op ((s.rank r).comm.given tape []) = (.ok x, c) → Step (afterCall pp s r op x c)
  | stream {r op s'} : r < pp.job.size → (s.rank r).ops[(s.rank r).ran]? = some op → exec pp s r op = some s' →
      Step (tick s' r)
  | put {i p} : s.flying[i]? = some p → Step (afterPut pp s i p)
  | message {a b} : a < pp.job.size → b < pp.job.size → a ≠ b → s.arrived a b < s.sent a b →
      s.arrived a b < ((s.rank b).recvq a).length → Step (afterMessage s a b)

/-- The states the job can be in after `n` steps. -/
inductive Run : Nat → AsyncState → Prop where
  | start : Run 0 (start pp)
  | step {n s s'} : Run n s → Step pp s s' → Run (n + 1) s'

end Asyncpong

end LibMp
