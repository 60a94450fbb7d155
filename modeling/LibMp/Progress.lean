import LibMp.Pool

/- Progress and waiting (mp.c): handing the triggered sends of the posted
   lists to the HCA, polling completions, and the calls that wait on the CPU.

   A loop that waits for something of the outside runs on fuel. The fuel of a
   waiting loop is the number of answers left: every round takes at least one,
   and once they are used up nothing changes any more, so the stop `spinning`
   is a call that is still in its loop. The loops over a list of requests run
   on the number of requests there are. -/
namespace LibMp
variable (cfg : Config)

namespace World
variable (w : World)

/-- Delink the request at `p` from the posted list of client `c`, as
`progress_posted_list` does: its neighbours first, then head and tail, then its
own links. -/
def delink (c : Nat) (f : Flow) (p : Ptr) : World :=
  let r := w.mem p
  let w₁ := match r.next with
    | some q => w.setReq q fun n => { n with prev := r.prev }
    | none => w
  let w₂ := match r.prev with
    | some q => w₁.setReq q fun n => { n with next := r.next }
    | none => w₁
  let w₃ := if (w₂.clients c).postedStreamReq f = some p then
      w₂.setClient c fun cl => { cl with postedStreamReq := Function.update cl.postedStreamReq f r.next }
    else w₂
  let w₄ := if (w₃.clients c).lastPostedStreamReq f = some p then
      w₃.setClient c fun cl =>
        { cl with lastPostedStreamReq := Function.update cl.lastPostedStreamReq f r.prev }
    else w₃
  w₄.setReq p fun r => { r with prev := none, next := none }

def setStatus (p : Ptr) (st : State) : World := w.setReq p fun r => { r with status := st }

/-- What the posted list does to a request `gds_post_send` has taken. -/
def handOver (c : Nat) (f : Flow) (p : Ptr) : World :=
  (((w.addLog (.handed c p (w.mem p).id ((w.clients c).lastTriggerId f))).setStatus p .pending).delink c f p)

/-- `progress_request`. -/
def progressRequest (p : Ptr) : World :=
  match (w.mem p).status with
  | .pendingNowait | .pending => w.setReq p fun r => { r with status := .complete, sgv := none }
  | .prepared | .complete | .undef => w

/-- The `k`-th outstanding completion leaves the completion queue. -/
def dequeue (c : Nat) (f : Flow) (k : Nat) : World :=
  { w with cq := Function.update w.cq c (Function.update (w.cq c) f ((w.cq c f).eraseIdx k)) }

/-- The completion of the request at `p` raises `last_tracked_id` of its
client and flow. -/
def setTracked (c : Nat) (f : Flow) (p : Ptr) : World := w.setClient c fun cl =>
  { cl with lastTrackedId := Function.update cl.lastTrackedId f (w.mem p).id }

def setDone (c : Nat) (p : Ptr) : World := w.setClient c fun cl => { cl with lastDoneId := (w.mem p).id }

/-- What the completion loop does for the `k`-th outstanding completion, `wr`. -/
def complete (c : Nat) (f : Flow) (k : Nat) (wr : Wr) : World :=
  let w₁ := w.dequeue c f k
  let w₂ := if cfg.useEventSync && (w.mem wr.wrId).trigger then w₁.setTracked c f wr.wrId else w₁
  ((w₂.setDone c wr.wrId).progressRequest wr.wrId).addLog (.polled c f wr.wrId (w.mem wr.wrId).id)

end World

/-- The post of `progress_posted_list`: a request the HCA has taken leaves the list. -/
def postHead (c : Nat) (f : Flow) (p : Ptr) : M Int := do
  let ret ← gdsPostSend c p
  if ret = 0 then update fun w => w.handOver c f p
  return ret

/-- The `while` of `progress_posted_list` for one client. -/
def progressPosted (c : Nat) (f : Flow) : Nat → M Int
  | 0 => Prog.stop .spinning
  | fuel + 1 => do
    let cl ← client c
    match cl.postedStreamReq f with
    | none => return 0
    | some p =>
      -- only up to the last id whose trigger write the streams have done
      streamsRun
      let cl ← client c
      let r ← request p
      if cl.lastTriggerId f < r.id then return 0
      Prog.require (r.status = .prepared) .assertStatus
      Prog.require r.type.tx .assertType
      let ret ← postHead c f p
      if ret ≠ 0 then return ret
      progressPosted c f fuel

/-- The `for` of `progress_posted_list`: an error ends it. -/
def progressPostedClients (f : Flow) : List Nat → M Int
  | [] => return 0
  | c :: rest => do
    let w ← world
    let ret ← progressPosted c f (w.frontier + 1)
    if ret ≠ 0 then return ret
    progressPostedClients f rest

def progressPostedList (f : Flow) : M Int :=
  if cfg.useEventSync then progressPostedClients f (List.range cfg.clientCount) else return 0

/-- The `while` of `client_can_poll` from a request of the waited list. -/
def canPollFrom (c : Nat) (f : Flow) : Nat → Option Ptr → Nat → M Nat
  | _, none, _ => return cfg.cqPollCount
  | 0, some _, _ => Prog.stop .spinning
  | fuel + 1, some p, n => do
    let cl ← client c
    let r ← request p
    if cl.lastTrackedId f < r.id then return n
    canPollFrom c f fuel r.next (n + 1)

def clientCanPoll (c : Nat) (f : Flow) : M Nat := do
  if cfg.useEventSync then return cfg.cqPollCount
  let w ← world
  canPollFrom cfg c f (w.frontier + 1) ((w.clients c).waitedStreamReq f) 0

/-- The body of the completion loop for the `k`-th outstanding completion. -/
def progressCompletion (c : Nat) (f : Flow) (k : Nat) : M Unit := do
  let w ← world
  match (w.cq c f)[k]? with
  | none => return ()
  | some wr =>
    let r := w.mem wr.wrId
    Prog.require (r.status = .pendingNowait || r.status = .pending) .exitStatus
    Prog.require (!(cfg.useEventSync && r.trigger) || (w.clients c).lastTrackedId f < r.id) .assertTracked
    update fun w => w.complete cfg c f k wr

def progressCompletions (c : Nat) (f : Flow) : List Nat → M Unit
  | [] => return ()
  | k :: rest => do
    progressCompletion cfg c f k
    streamsRun
    progressCompletions c f rest

/-- One round of the loop over the clients: `ibv_poll_cq` fails when it
returns a negative number. -/
def pollClient (f : Flow) (c : Nat) : M Int := do
  let n ← clientCanPoll cfg c f
  let cqeCount := min n cfg.cqPollCount
  if cqeCount = 0 then return 0
  let a ← answer
  update fun w => runStreams w a.gpu
  if a.rc < 0 then return mpFailure
  -- the completions arrive in any order, and at most `cqe_count` of them
  progressCompletions cfg c f (a.picks.take cqeCount)
  return 0

def pollClients (f : Flow) : List Nat → M Int
  | [] => return 0
  | c :: rest => do
    let ret ← pollClient cfg f c
    if ret ≠ 0 then return ret
    pollClients f rest

/-- `mp_progress_single_flow`. The result of `progress_posted_list` is not looked at. -/
def mpProgressSingleFlow (f : Flow) : M Int := do
  let _ ← progressPostedList cfg f
  pollClients cfg f (List.range cfg.clientCount)

/-! ## Waiting on the CPU -/

/-- The first loop of `mp_wait_all`: post the CQ waits. -/
def postWaits : List Ptr → M Int
  | [] => return 0
  | p :: rest => do
    let r ← request p
    Prog.require (r.type ≠ .null) .assertType
    if !r.canBeWaited then return einval
    if r.status = .pendingNowait then
      let _ ← clientOf cfg r.peer
      let ret ← gdsPostWaitCq p
      if ret ≠ 0 then return ret
      update fun w => w.setReq p fun r => { r with stream := none, status := .pending }
    postWaits rest

/-- The waiting loop of `mp_wait_all` for one request. -/
def spin (p : Ptr) : Nat → M Int
  | 0 => Prog.stop .spinning
  | fuel + 1 => do
    let r ← request p
    if r.status = .complete then return 0
    let ret ← mpProgressSingleFlow cfg .tx
    if ret ≠ 0 then return ret
    let ret ← mpProgressSingleFlow cfg .rx
    if ret ≠ 0 then return ret
    let late ← timeout
    if late then
      let retcode ← mpCheckGpuError
      if retcode ≠ 0 then return mpFailure
    spin p fuel

def spinAll : List Ptr → M Int
  | [] => return 0
  | p :: rest => do
    let s ← Prog.get
    let ret ← spin cfg p (s.tape.length + 2)
    if ret ≠ 0 then return ret
    spinAll rest

/-- The last loop of `mp_wait_all`. -/
def releaseAll (ret : Int) : List Ptr → M Int
  | [] => return ret
  | p :: rest => do
    let r ← request p
    if r.status = .complete then
      releaseMpRequest p
      releaseAll ret rest
    else
      -- the others are still put back
      releaseAll mpFailure rest

def mpWaitAll (ps : List Ptr) : M Int := do
  let ret ← postWaits cfg ps
  if ret ≠ 0 then return ret
  let ret ← spinAll cfg ps
  if ret ≠ 0 then return ret
  releaseAll 0 ps

def mpWait (p : Ptr) : M Int := mpWaitAll cfg [p]

/-- `mp_progress_all`: the number of complete requests, or an error. -/
def progressAllFrom (completed : Int) : List Ptr → M Int
  | [] => return completed
  | p :: rest => do
    let r ← request p
    if r.status = .complete then
      progressAllFrom (completed + 1) rest
    else
      let ret ← mpProgressSingleFlow cfg .tx
      if ret ≠ 0 then return ret
      let ret ← mpProgressSingleFlow cfg .rx
      if ret ≠ 0 then return ret
      -- progress may have completed it
      let r ← request p
      progressAllFrom (if r.status = .complete then completed + 1 else completed) rest

def mpProgressAll (ps : List Ptr) : M Int := progressAllFrom cfg 0 ps

/-! ## Posting with retries -/

/-- The loop of `mp_post_send` and `mp_post_recv`: on `ENOMEM` progress the
flow and try again, `tries` times at most. -/
def postRetry (post : M Int) (f : Flow) : Nat → M Int
  | 0 => return enomem
  | tries + 1 => do
    let ret ← post
    if ret = enomem then
      let retProgress ← mpProgressSingleFlow cfg f
      -- the caller gets the `ENOMEM`, not the error of the progress
      if retProgress ≠ 0 then return ret
      postRetry post f tries
    else return ret

/-- `MP_MAX_PROGRESS_FLOW_TRY` is 100, and the test is `<=`. -/
def mpMaxProgressFlowTry : Nat := 100

def mpPostSend (c : Nat) (p : Ptr) : M Int :=
  postRetry cfg (gdsPostSend c p) .tx (mpMaxProgressFlowTry + 1)

def mpPostRecv (c : Nat) (p : Ptr) : M Int :=
  postRetry cfg (gdsPostRecv c p) .rx (mpMaxProgressFlowTry + 1)

/-- The loop of `mp_post_send_on_stream`. -/
def queueRetry (s : Stream) (c : Nat) (p : Ptr) : Nat → M Int
  | 0 => Prog.stop .spinning
  | fuel + 1 => do
    let ret ← gdsStreamQueueSend s c p
    if ret = enomem then
      let retProgress ← mpProgressSingleFlow cfg .tx
      if retProgress ≠ 0 then return retProgress
      let retProgress ← mpProgressSingleFlow cfg .rx
      if retProgress ≠ 0 then return retProgress
      let late ← timeout
      if late then
        let retcode ← mpCheckGpuError
        if retcode ≠ 0 then return retcode
      queueRetry s c p fuel
    else return ret

def mpPostSendOnStream (s : Stream) (c : Nat) (p : Ptr) : M Int := do
  let st ← Prog.get
  queueRetry cfg s c p (st.tape.length + 2)

end LibMp
