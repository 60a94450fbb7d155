import LibMp.CommPosts
import LibMp.Exchange
import LibMp.Rounds

/- `sync_exchange` of comm_pingpong.cpp on all ranks of a job, without event sync
   and UD mode, when no call fails.

   In each iteration a rank posts a receive for every other rank and tells it
   that it is ready, waits for every other rank to be ready and sends it a
   message, and flushes. The ranks run their calls of COMM one after the other,
   in any interleaving; puts and messages take any time. A step of a rank is a
   call that comes back, at the time when it does: `comm_wait_ready` when its
   word is there, `comm_flush` when the requests are complete. Until its word is
   there a rank in `comm_wait_ready` progresses now and then (`Poll`). A receive
   completes when its message has arrived, a send when its message has found a
   receive: a queue pair that finds none is told so and tries again (`rnr_retry`
   is 7, which is for ever).

   The job refines an exchange of messages with credits (`Exchange`), by counting
   the calls. So no message ever has to try again, and the job ends. -/
namespace LibMp

/-! ## The calls of an iteration -/

inductive PingOp where
  | irecv (peer : Nat)
  | sendReady (peer : Nat)
  | waitReady (peer : Nat)
  | isend (peer : Nat)
  | flush
  deriving DecidableEq, Repr

/-- What `sync_exchange` does before it flushes, on rank `r` of `n`. -/
def syncPosts (n r : Nat) : List PingOp :=
  ((commPeers n r).flatMap fun peer => [.irecv peer, .sendReady peer]) ++
    (commPeers n r).flatMap fun peer => [.waitReady peer, .isend peer]

/-- `sync_exchange`. -/
def syncExchange (n r : Nat) : List PingOp := syncPosts n r ++ [.flush]

section Body
variable {n r p q : Nat}

theorem commPeers_nodup (n r : Nat) : (commPeers n r).Nodup := List.nodup_range.filter _

theorem mem_syncPosts {op : PingOp} : op ∈ syncPosts n r ↔
    ∃ p, (p < n ∧ p ≠ r) ∧ (op = .irecv p ∨ op = .sendReady p ∨ op = .waitReady p ∨ op = .isend p) := by
  simp only [syncPosts, List.mem_append, List.mem_flatMap, mem_commPeers, List.mem_cons, List.not_mem_nil, or_false]
  constructor
  · rintro (⟨p, hp, h⟩ | ⟨p, hp, h⟩)
    · exact ⟨p, hp, by tauto⟩
    · exact ⟨p, hp, by tauto⟩
  · rintro ⟨p, hp, h⟩
    rcases h with h | h | h | h
    · exact .inl ⟨p, hp, .inl h⟩
    · exact .inl ⟨p, hp, .inr h⟩
    · exact .inr ⟨p, hp, .inl h⟩
    · exact .inr ⟨p, hp, .inr h⟩

theorem syncPosts_nodup (n r : Nat) : (syncPosts n r).Nodup := by
  refine List.nodup_append.mpr ⟨?_, ?_, ?_⟩
  · exact pairs_nodup (commPeers_nodup n r) (fun _ _ => PingOp.irecv.inj) (fun _ _ => PingOp.sendReady.inj) (by simp)
  · exact pairs_nodup (commPeers_nodup n r) (fun _ _ => PingOp.waitReady.inj) (fun _ _ => PingOp.isend.inj) (by simp)
  · intro op hop op' hop' he
    simp only [List.mem_flatMap, List.mem_cons, List.not_mem_nil, or_false] at hop hop'
    obtain ⟨p, -, hp⟩ := hop
    obtain ⟨q, -, hq⟩ := hop'
    rw [he] at hp
    rcases hp with rfl | rfl <;> simp at hq

theorem syncExchange_nodup (n r : Nat) : (syncExchange n r).Nodup := by
  refine List.nodup_append.mpr ⟨syncPosts_nodup n r, List.nodup_singleton _, fun op hop op' hop' he => ?_⟩
  rw [he, List.mem_singleton.mp hop', mem_syncPosts] at hop
  obtain ⟨p, -, h⟩ := hop
  simp at h

theorem mem_syncExchange {op : PingOp} : op ∈ syncExchange n r ↔ op ∈ syncPosts n r ∨ op = .flush := by
  rw [syncExchange, List.mem_append, List.mem_singleton]

/-- Four calls for each other rank, and the flush. -/
theorem syncExchange_length_le (n r : Nat) : (syncExchange n r).length ≤ 4 * n + 1 := by
  have hpeers : (commPeers n r).length ≤ n := by
    have hle := List.length_filter_le (· ≠ r) (List.range n)
    rwa [List.length_range] at hle
  simp only [syncExchange, syncPosts, List.length_append, List.length_flatMap, List.length_cons, List.length_nil,
    List.map_const', List.sum_replicate, Nat.nsmul_eq_mul]
  omega

/-! ### The order of the calls -/

section Other
variable (hp : p < n ∧ p ≠ r)
include hp

theorem irecv_before_sendReady : [PingOp.irecv p, .sendReady p].Sublist (syncExchange n r) :=
  ((sublist_flatMap (f := fun q => [PingOp.irecv q, .sendReady q]) (mem_commPeers.mpr hp)).trans
    (List.sublist_append_left ..)).trans (List.sublist_append_left ..)

theorem waitReady_before_isend : [PingOp.waitReady p, .isend p].Sublist (syncExchange n r) :=
  ((sublist_flatMap (f := fun q => [PingOp.waitReady q, .isend q]) (mem_commPeers.mpr hp)).trans
    (List.sublist_append_right ..)).trans (List.sublist_append_left ..)

end Other

theorem before_flush {op : PingOp} (h : op ∈ syncPosts n r) : [op, .flush].Sublist (syncExchange n r) :=
  before_append h (List.mem_singleton_self _)

end Body

/-! ## The job -/

/-- `MAX_PEERS`. -/
def maxPeers : Nat := 10

/-- `MAX_ITERS`; `main` takes no more iterations from the environment. -/
def maxIters : Nat := 128

/-- What `main` fixes on the ranks: the number of iterations, the size of a
message, the buffers and the registrations for each peer. No rank uses event
sync or UD mode, a message has at least one byte, and a poll of a completion
queue asks for at least one completion. -/
structure Pingpong where
  job : CommJob
  ranks : job.size ≤ maxPeers
  totIters : Nat
  iters : totIters ≤ maxIters
  maxSize : Nat
  notEmpty : maxSize % 2 ^ 64 ≠ 0
  sendBuf : Nat → Nat → Nat
  recvBuf : Nat → Nat → Nat
  sreg : Nat → Nat
  rreg : Nat → Nat
  noEventSync : ∀ r, (job.cfg r).useEventSync = false
  noUd : ∀ r, (job.cfg r).enableUd = false
  polls : ∀ r, 0 < (job.cfg r).cqPollCount

/-- The call of COMM behind a step of `sync_exchange`. -/
def Pingpong.call (pp : Pingpong) (r : Nat) : PingOp → CommOp
  | .irecv peer => .irecv (pp.recvBuf r peer) pp.maxSize .char (pp.rreg r + 8 * peer) peer
  | .sendReady peer => .sendReady peer
  | .waitReady peer => .waitReady peer
  | .isend peer => .isend (pp.sendBuf r peer) pp.maxSize .char (pp.sreg r + 8 * peer) peer
  | .flush => .flush

/-- The ranks, the place of each in its iterations, the puts in flight and how
many messages have arrived, by sender and receiver. -/
structure PingState where
  comm : Nat → Comm
  pos : Nat → Place PingOp
  flying : List Put
  arrived : Nat → Nat → Nat
  log : List ReadyEv

namespace Pingpong
variable (pp : Pingpong) (s : PingState)

/-- The calls of an iteration of rank `r`. -/
def body (r : Nat) : List PingOp := syncExchange pp.job.size r

/-- Every rank has come back from `comm_init`. -/
def start : PingState := ⟨fun _ => Comm.init, fun r => .start (pp.body r), [], fun _ _ => 0, []⟩

/-- How often rank `r` has made a call. -/
def done (r : Nat) (op : PingOp) : Nat := if op ∈ pp.body r then (s.pos r).count op else 0

/-- The puts a call issues. -/
def puts (r : Nat) : PingOp → List Put
  | .sendReady peer => (pp.job.put (s.comm r).ready r peer (sentCount s.log r peer + 1)).toList
  | _ => []

/-- What a call adds to the log of the ready protocol. -/
def events (r : Nat) : PingOp → List ReadyEv
  | .sendReady peer => [.sent r peer]
  | .waitReady peer => [.took r peer, .released r peer (tookCount s.log r peer + 1)]
  | _ => []

/-- A call of rank `r` has come back and has left `c`. -/
def afterCall (r : Nat) (op : PingOp) (c : Comm) : PingState where
  comm := Function.update s.comm r c
  pos := Function.update s.pos r ((s.pos r).next (pp.body r))
  flying := s.flying ++ pp.puts s r op
  arrived := s.arrived
  log := s.log ++ events s r op

/-- Put `i` arrives. -/
def afterPut (i : Nat) (p : Put) : PingState := { s with
  comm := Function.update s.comm p.dst { s.comm p.dst with
    ready := (s.comm p.dst).ready.store (pp.job.tableAt p.dst) p.addr p.value }
  flying := s.flying.eraseIdx i
  log := s.log ++ [.delivered p.src p.dst p.no] }

/-- A message from `a` arrives at `b`. -/
def afterMessage (a b : Nat) : PingState := { s with arrived := setAt s.arrived a b (s.arrived a b + 1) }

/-- Rank `r` has progressed inside a call and has left `c`. -/
def afterPoll (r : Nat) (c : Comm) : PingState := { s with comm := Function.update s.comm r c }

/-- Of the receives and sends of rank `r` no more are complete than messages
have arrived: the others stand in the completion queues. -/
def Completes (r : Nat) : Prop := ∀ peer i, (pp.job.comm r).mp.clientIndex peer = some i →
  pp.done s r (.irecv peer) ≤ s.arrived peer r + ((s.comm r).sys.w.cq i .rx).length ∧
  pp.done s r (.isend peer) ≤ s.arrived r peer + ((s.comm r).sys.w.cq i .tx).length

/-- A call of a rank comes back, a put arrives, or a message does; a message
needs a receive that was posted for it. -/
inductive Step : PingState → Prop where
  | call {r op rest tape x c} : r < pp.job.size → (s.pos r).round < pp.totIters →
      (s.pos r).todo = op :: rest → Succeeds tape →
      (pp.call r op).run (pp.job.comm r) ((s.comm r).given tape []) = (.ok x, c) →
      pp.Completes (pp.afterCall s r op c) r → Step (pp.afterCall s r op c)
  | put {i p} : s.flying[i]? = some p → Step (pp.afterPut s i p)
  | message {a b} : a < pp.job.size → b < pp.job.size → a ≠ b → s.arrived a b < pp.done s a (.isend b) →
      s.arrived a b < pp.done s b (.irecv a) → Step (afterMessage s a b)

/-- A rank in `comm_wait_ready` progresses while its word is not there. With no
more words to arrive in the call itself, this is all that can happen to it
before it comes back (`commWaitReady_waits`). -/
inductive Poll : PingState → Prop where
  | wait {r p rest tape c} : r < pp.job.size → (s.pos r).round < pp.totIters →
      (s.pos r).todo = .waitReady p :: rest → Succeeds tape →
      Waiting (pp.job.comm r) p ((s.comm r).given tape []) c → pp.Completes (afterPoll s r c) r → Poll (afterPoll s r c)

/-- The states the job can be in after `k` steps and any number of polls. -/
inductive Run : Nat → PingState → Prop where
  | start : Run 0 pp.start
  | step {k s s'} : Run k s → pp.Step s s' → Run (k + 1) s'
  | poll {k s s'} : Run k s → pp.Poll s s' → Run k s'

end Pingpong

end LibMp
