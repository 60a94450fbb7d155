import LibMp.Post

/- The stream calls of mp_peersync.c: sends, puts and gets on a stream, the
   split prepare/post calls, and the waits on a stream.

   In event-sync mode a send on a stream is not posted at once: the call
   enqueues a write of the request's id to `last_trigger_id` and appends the
   request to the client's posted list; `progress_posted_list` posts it when
   the write has been executed. A stream wait enqueues a wait for
   `last_tracked_id` to reach the id, unless `last_posted_tracked_id` says that
   a wait for this id or a later one was enqueued already.

   The batched calls copy infos to an array on the stack or on the heap,
   depending on `count`; the copies are the lists below. -/
namespace LibMp
variable (cfg : Config)

namespace World
variable (w : World)

/-- `client->last_posted_trigger_id[flow] = req->id`. -/
def stamp (c : Nat) (f : Flow) (p : Ptr) : World := w.setClient c fun cl =>
  { cl with lastPostedTriggerId := Function.update cl.lastPostedTriggerId f (w.mem p).id }

/-- `req->trigger = 1` and `client->last_posted_tracked_id[flow] = req->id`. -/
def arm (c : Nat) (f : Flow) (p : Ptr) : World :=
  (w.setReq p fun r => { r with trigger := true }).setClient c fun cl =>
    { cl with lastPostedTrackedId := Function.update cl.lastPostedTrackedId f (w.mem p).id }

/-- The list updates of `client_track_posted_stream_req`. -/
def append (c : Nat) (f : Flow) (p : Ptr) : World :=
  match (w.clients c).postedStreamReq f with
  | none => w.setClient c fun cl => { cl with
      postedStreamReq := Function.update cl.postedStreamReq f (some p)
      lastPostedStreamReq := Function.update cl.lastPostedStreamReq f (some p) }
  | some _ =>
    match (w.clients c).lastPostedStreamReq f with
    | none => w
    | some q =>
      ((w.setReq q fun r => { r with next := some p }).setReq p fun r => { r with prev := some q }).setClient c
        fun cl => { cl with lastPostedStreamReq := Function.update cl.lastPostedStreamReq f (some p) }

/-- The assertions of `client_track_posted_stream_req`. With `p` itself as the
tail its `next` would be set before it is asserted to be null. -/
def appendOk (c : Nat) (f : Flow) (p : Ptr) : Bool :=
  match (w.clients c).postedStreamReq f, (w.clients c).lastPostedStreamReq f with
  | none, tl => tl == none
  | some _, none => false
  | some _, some q => q != p && (w.mem p).next == none

end World

/-- `client_track_posted_stream_req`, by a call on stream `s`. -/
def clientTrackPostedStreamReq (c : Nat) (p : Ptr) (f : Flow) (s : Stream) : M Unit := do
  let w ← world
  Prog.require (w.appendOk c f p) .assertLinks
  update fun w => (w.append c f p).addLog (.tracked c p (w.mem p).id s)

/-- "block stream on completion of this req": unless a wait for this id was
enqueued already, as `last_posted_tracked_id[f]` says, arm the request and add
the wait on the word of its own flow to the descriptors. -/
def blockOnCompletion (c : Nat) (f : Flow) (p : Ptr) (descs : List StreamOp) : M (Int × List StreamOp) := do
  let cl ← client c
  let r ← request p
  if cl.lastPostedTrackedId f < r.id then
    update fun w => w.arm c f p
    let ret ← returnCode
    return (ret, descs ++ [.wait (.lastTrackedId c r.type.flow) r.id .geq])
  else return (0, descs)

/-- `mp_send_on_stream`. -/
def mpSendOnStream (buf : Nat) (size : Int) (peer : Nat) (reg : Reg) (s : Stream) :
    M (Int × Option Ptr) := do
  let c ← clientOf cfg peer
  if cfg.useEventSync then
    let p ← newStreamRequest .mpSendOnStream c (cfg.mpiRank c) .send .prepared
    update fun w => w.buildSend cfg c p buf size reg
    -- from here on the id counts as posted
    update fun w => w.stamp c .tx p
    let r ← request p
    let ret ← returnCode
    if ret ≠ 0 then return (ret, none)
    clientTrackPostedStreamReq c p .tx s
    let (ret, descs) ← blockOnCompletion c .tx p [.write (.lastTriggerId c .tx) r.id]
    if ret ≠ 0 then return (ret, none)
    let ret ← gdsStreamPostDescriptors s descs
    if ret ≠ 0 then return (ret, none)
    return (0, some p)
  else
    let p ← newStreamRequest .mpSendOnStream c (cfg.mpiRank c) .send .pending
    update fun w => w.buildSend cfg c p buf size reg
    let ret ← gdsStreamQueueSend s c p
    if ret ≠ 0 then return (ret, none)
    let ret ← gdsStreamWaitCq s c .tx
    if ret ≠ 0 then return (ret, none)
    return (0, some p)

/-- `mp_isend_on_stream`. -/
def mpIsendOnStream (buf : Nat) (size : Int) (peer : Nat) (reg : Reg) (s : Stream) :
    M (Int × Option Ptr) := do
  let c ← clientOf cfg peer
  if cfg.useEventSync then
    let p ← newStreamRequest .mpIsendOnStream c (cfg.mpiRank c) .send .prepared
    update fun w => w.buildSend cfg c p buf size reg
    update fun w => w.stamp c .tx p
    let r ← request p
    let ret ← returnCode
    if ret ≠ 0 then return (ret, none)
    let ret ← gdsStreamPostDescriptors s [.write (.lastTriggerId c .tx) r.id]
    if ret ≠ 0 then return (ret, none)
    -- on the posted list only once the stream has its trigger write
    clientTrackPostedStreamReq c p .tx s
    return (0, some p)
  else
    let p ← newStreamRequest .mpIsendOnStream c (cfg.mpiRank c) .send .pendingNowait
    update fun w => w.buildSend cfg c p buf size reg
    let ret ← mpPostSendOnStream cfg s c p
    if ret ≠ 0 then return (ret, none)
    let ret ← gdsPrepareWaitCq c .tx p
    if ret ≠ 0 then return (ret, none)
    return (0, some p)

/-- `mp_isendv_on_stream`. -/
def mpIsendvOnStream (v : List Iovec) (peer : Nat) (reg : Reg) (s : Stream) :
    M (Int × Option Ptr) := do
  let c ← clientOf cfg peer
  if cfg.useEventSync then return (mpFailure, none)
  if v.length > cfg.ibMaxSge then return (mpFailure, none)
  let p ← newStreamRequest .mpIsendvOnStream c (cfg.mpiRank c) .send .pendingNowait
  update fun w => w.buildSendv cfg c p v reg
  let ret ← gdsStreamQueueSend s c p
  if ret ≠ 0 then return (ret, none)
  let ret ← gdsPrepareWaitCq c .tx p
  if ret ≠ 0 then return (ret, none)
  return (0, some p)

/-! ## Prepared sends -/

/-- The end of the prepare calls without event sync: queue the work request,
then prepare the wait. -/
def prepareInfos (c : Nat) (p : Ptr) : M (Int × Option Ptr) := do
  let ret ← gdsPrepareSend c p
  if ret ≠ 0 then return (ret, none)
  let ret ← gdsPrepareWaitCq c .tx p
  if ret ≠ 0 then return (ret, none)
  return (0, some p)

/-- `mp_send_prepare`. -/
def mpSendPrepare (buf : Nat) (size : Int) (peer : Nat) (reg : Reg) : M (Int × Option Ptr) := do
  let c ← clientOf cfg peer
  let p ← newStreamRequest .mpSendPrepare c (cfg.mpiRank c) .send .prepared
  update fun w => w.buildSend cfg c p buf size reg
  if cfg.useEventSync then return (0, some p)
  prepareInfos c p

/-- `mp_sendv_prepare`. -/
def mpSendvPrepare (v : List Iovec) (peer : Nat) (reg : Reg) : M (Int × Option Ptr) := do
  let c ← clientOf cfg peer
  if cfg.useEventSync then return (mpFailure, none)
  if v.length > cfg.ibMaxSge then return (mpFailure, none)
  let p ← newStreamRequest .mpSendvPrepare c (cfg.mpiRank c) .send .prepared
  update fun w => w.buildSendv cfg c p v reg
  prepareInfos c p

/-- `mp_send_post_on_stream`. -/
def mpSendPostOnStream (p : Ptr) (s : Stream) : M Int := do
  let r ← request p
  Prog.require (r.status = .prepared) .assertStatus
  let c ← clientOf cfg r.peer
  update fun w => w.setReq p fun r => { r with stream := some s }
  if cfg.useEventSync then
    Prog.require (r.type ≠ .null) .assertType
    let cl ← client c
    -- the sends of a client have to be posted in the order of their ids
    if r.id ≤ cl.lastPostedTriggerId r.type.flow then return mpFailure
    update fun w => w.stamp c r.type.flow p
    let ret ← returnCode
    if ret ≠ 0 then return ret
    clientTrackPostedStreamReq c p .tx s
    let (ret, descs) ← blockOnCompletion c .tx p [.write (.lastTriggerId c r.type.flow) r.id]
    if ret ≠ 0 then return ret
    gdsStreamPostDescriptors s descs
  else
    update fun w => w.setStatus p .pending
    let ret ← gdsStreamPostSend s r.gdsSendInfo
    if ret ≠ 0 then return ret
    gdsStreamPostWaitCq s p

/-- `mp_isend_post_on_stream`. With event sync the result of preparing the
write is tested only after the post, and that of the post only at the end. -/
def mpIsendPostOnStream (p : Ptr) (s : Stream) : M Int := do
  let r ← request p
  Prog.require (r.status = .prepared) .assertStatus
  update fun w => w.setReq p fun r => { r with stream := some s }
  if cfg.useEventSync then
    let c ← clientOf cfg r.peer
    Prog.require (r.type ≠ .null) .assertType
    let cl ← client c
    if r.id ≤ cl.lastPostedTriggerId r.type.flow then return mpFailure
    update fun w => w.stamp c r.type.flow p
    let retcode ← returnCode
    let ret ← gdsStreamPostDescriptors s [.write (.lastTriggerId c r.type.flow) r.id]
    -- the test after the post is of `retcode`
    if retcode ≠ 0 then return mpFailure
    clientTrackPostedStreamReq c p .tx s
    return ret
  else
    update fun w => w.setStatus p .pendingNowait
    gdsStreamPostSend s r.gdsSendInfo

/-- The loop of the batched posts with event sync: `blocking` is
`mp_send_post_all_on_stream`. -/
def postAllEvent (blocking : Bool) (s : Stream) : List Ptr → List StreamOp → M (Int × List StreamOp)
  | [], descs => return (0, descs)
  | p :: rest, descs => do
    let r ← request p
    let c ← clientOf cfg r.peer
    Prog.require (r.type ≠ .null) .assertType
    let cl ← client c
    if r.id ≤ cl.lastPostedTriggerId r.type.flow then return (mpFailure, descs)
    update fun w => w.stamp c r.type.flow p
    let ret ← returnCode
    let descs := descs ++ [.write (.lastTriggerId c r.type.flow) r.id]
    if ret ≠ 0 then return (if blocking then ret else mpFailure, descs)
    clientTrackPostedStreamReq c p .tx s
    if blocking then
      let (ret, descs) ← blockOnCompletion c .tx p descs
      if ret ≠ 0 then return (ret, descs)
      postAllEvent blocking s rest descs
    else postAllEvent blocking s rest descs

/-- The loop of `mp_send_post_all_on_stream` without event sync: copy the
infos. -/
def copyInfos : List Ptr → M (List (Option SendInfo) × List (Option WaitInfo))
  | [] => return ([], [])
  | p :: rest => do
    let r ← request p
    Prog.require (r.status = .prepared) .assertStatus
    let (sends, waits) ← copyInfos rest
    return (r.gdsSendInfo :: sends, r.gdsWaitInfo :: waits)

/-- `mp_send_post_all_on_stream`. Without event sync it leaves the status of
the requests as it is. -/
def mpSendPostAllOnStream (ps : List Ptr) (s : Stream) : M Int := do
  if cfg.useEventSync then
    let (ret, descs) ← postAllEvent cfg true s ps []
    if ret ≠ 0 then return ret
    gdsStreamPostDescriptors s descs
  else
    let (sends, waits) ← copyInfos ps
    let ret ← gdsStreamPostSendAll s sends
    if ret ≠ 0 then return ret
    gdsStreamPostWaitCqAll s ps waits

/-- The loop of the batched posts that makes the requests pending; `onStream`
stores the stream too. -/
def startAll (onStream : Option Stream) : List Ptr → M (List (Option SendInfo))
  | [] => return []
  | p :: rest => do
    let r ← request p
    Prog.require (r.status = .prepared) .assertStatus
    update fun w => w.setReq p fun r => { r with
      stream := onStream.orElse fun _ => r.stream, status := .pendingNowait }
    let sends ← startAll onStream rest
    return r.gdsSendInfo :: sends

/-- `mp_isend_post_all_on_stream`. -/
def mpIsendPostAllOnStream (ps : List Ptr) (s : Stream) : M Int := do
  if cfg.useEventSync then
    let (ret, descs) ← postAllEvent cfg false s ps []
    if ret ≠ 0 then return ret
    gdsStreamPostDescriptors s descs
  else
    let sends ← startAll (some s) ps
    gdsStreamPostSendAll s sends

/-! ## Waits on a stream -/

/-- `mp_wait_on_stream`. -/
def mpWaitOnStream (p : Ptr) (s : Stream) : M Int := do
  let r ← request p
  let c ← clientOf cfg r.peer
  Prog.require (r.type ≠ .null) .assertType
  if cfg.useEventSync then
    if r.status = .complete then return 0
    let cl ← client c
    if cl.lastPostedTrackedId r.type.flow < r.id then
      update fun w => w.arm c r.type.flow p
      let ret ← returnCode
      if ret ≠ 0 then return ret
      gdsStreamPostDescriptors s [.wait (.lastTrackedId c r.type.flow) r.id .geq]
    else return 0
  else
    if !r.canBeWaited then return einval
    Prog.require (r.status = .pendingNowait || r.status = .complete) .assertStatus
    update fun w => w.setReq p fun r => { r with stream := some s, status := .pending }
    gdsStreamPostWaitCq s p

/-- `enum mp_wait_flags`. -/
def mpWaitGeq : Int := 0
def mpWaitEq : Int := 1
def mpWaitAnd : Int := 2

/-- `mp_wait32_on_stream`: every flag of the enumeration becomes the condition
GEQ. -/
def mpWait32OnStream (addr value : Nat) (flags : Int) (s : Stream) : M Int := do
  if flags = mpWaitEq ∨ flags = mpWaitGeq ∨ flags = mpWaitAnd then
    let ret ← returnCode
    if ret ≠ 0 then return ret
    gdsStreamPostDescriptors s [.wait (.user addr) value .geq]
  else return einval

/-- The loop of `mp_wait_all_on_stream` with event sync. -/
def waitAllEvent : List Ptr → List StreamOp → M (Int × List StreamOp)
  | [], descs => return (0, descs)
  | p :: rest, descs => do
    let r ← request p
    let c ← clientOf cfg r.peer
    Prog.require (r.type ≠ .null) .assertType
    Prog.require (r.status ≠ .complete) .assertStatus
    let (ret, descs) ← blockOnCompletion c r.type.flow p descs
    if ret ≠ 0 then return (ret, descs)
    waitAllEvent rest descs

/-- The loop of `mp_wait_all_on_stream` without event sync. -/
def waitAllCopy (s : Stream) : List Ptr → M (Int × List (Option WaitInfo))
  | [] => return (0, [])
  | p :: rest => do
    let r ← request p
    Prog.require (r.type ≠ .null) .assertType
    -- the requests before this one stay pending
    if !r.canBeWaited then return (einval, [])
    Prog.require (r.status = .pendingNowait || r.status = .complete) .assertStatus
    update fun w => w.setReq p fun r => { r with stream := some s, status := .pending }
    let (ret, waits) ← waitAllCopy s rest
    return (ret, r.gdsWaitInfo :: waits)

/-- `mp_wait_all_on_stream`. -/
def mpWaitAllOnStream (ps : List Ptr) (s : Stream) : M Int := do
  if ps = [] then return 0
  if cfg.useEventSync then
    let (ret, descs) ← waitAllEvent cfg ps []
    if ret ≠ 0 then return ret
    gdsStreamPostDescriptors s descs
  else
    let (ret, waits) ← waitAllCopy s ps
    if ret ≠ 0 then return ret
    gdsStreamPostWaitCqAll s ps waits

/-! ## Puts and gets on a stream -/

/-- The common end of `mp_put_prepare` and `mp_iput_on_stream`: an error puts
the request back. -/
def releaseOnError (p : Ptr) (m : M Int) : M (Int × Option Ptr) := do
  let ret ← m
  if ret ≠ 0 then
    releaseMpRequest p
    return (ret, none)
  return (0, some p)

/-- `mp_put_prepare`. -/
def mpPutPrepare (src : Nat) (size : Int) (reg : Reg) (peer displ : Nat) (win : Window) (flags : Nat) :
    M (Int × Option Ptr) := do
  if cfg.enableUd then return (mpFailure, none)
  let c ← clientOf cfg peer
  Prog.require (displ < win.rsize c) .assertDispl
  let p ← newStreamRequest .mpPutPrepare c (cfg.mpiRank c) .rdma .prepared
  update fun w => w.buildPut c p src size reg displ win flags
  releaseOnError p do
    let ret ← gdsPrepareSend c p
    if ret ≠ 0 then return ret
    if nowait flags then return 0
    gdsPrepareWaitCq c .tx p

/-- `mp_iput_on_stream`. A put that is not to be waited for is complete at once. -/
def mpIputOnStream (src : Nat) (size : Int) (reg : Reg) (peer displ : Nat) (win : Window) (flags : Nat)
    (s : Stream) : M (Int × Option Ptr) := do
  if cfg.enableUd then return (mpFailure, none)
  let c ← clientOf cfg peer
  Prog.require (displ < win.rsize c) .assertDispl
  let p ← newStreamRequest .mpIputOnStream c (cfg.mpiRank c) .rdma .pendingNowait
  update fun w => w.buildPut c p src size reg displ win flags
  releaseOnError p do
    let ret ← mpPostSendOnStream cfg s c p
    if ret ≠ 0 then return ret
    if nowait flags then
      update fun w => w.setStatus p .complete
      return 0
    gdsPrepareWaitCq c .tx p

/-- `mp_iget_on_stream`. -/
def mpIgetOnStream (dst : Nat) (size : Int) (reg : Reg) (peer displ : Nat) (win : Window) (s : Stream) :
    M (Int × Option Ptr) := do
  if cfg.enableUd then return (mpFailure, none)
  let c ← clientOf cfg peer
  Prog.require (displ < win.rsize c) .assertDispl
  let p ← newStreamRequest .mpIgetOnStream c (cfg.mpiRank c) .rdma .pendingNowait
  update fun w => w.buildGet .expWrRdmaRead c p dst size reg displ win
  let ret ← gdsStreamQueueSend s c p
  if ret ≠ 0 then return (ret, none)
  let ret ← gdsPrepareWaitCq c .tx p
  if ret ≠ 0 then return (ret, none)
  return (0, some p)

/-- `mp_iput_post_on_stream`. -/
def mpIputPostOnStream (p : Ptr) (s : Stream) : M Int := do
  let r ← request p
  Prog.require (r.status = .prepared) .assertStatus
  let ret ← gdsStreamPostSend s r.gdsSendInfo
  if ret ≠ 0 then return ret
  update fun w => w.setStatus p (if nowait r.flags then .complete else .pendingNowait)
  return 0

/-- `mp_iput_post_all_on_stream`. -/
def mpIputPostAllOnStream (ps : List Ptr) (s : Stream) : M Int := do
  -- pending whatever the flags of the put
  let sends ← startAll none ps
  gdsStreamPostSendAll s sends

end LibMp
