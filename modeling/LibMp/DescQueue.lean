import LibMp.PeerSync

/- Descriptor queues (desc_queue.cpp) and the descriptors for kernels
   (mp_device.cpp). A queue collects descriptors that point to the infos of
   requests; the status of a request changes when it is added, not when the
   queue is posted. -/
namespace LibMp
variable (cfg : Config)

namespace World
variable (w : World)

def pushDesc (dq : Nat) (d : Desc) : World :=
  { w with descQueues := Function.update w.descQueues dq (w.descQueues dq ++ [d]) }

def flushDescs (dq : Nat) : World := { w with descQueues := Function.update w.descQueues dq [] }

/-- What a stream gets for a descriptor. -/
def descOp : Desc → StreamOp
  | .send p => .send (w.mem p).gdsSendInfo
  | .wait p => .waitCq (w.mem p).gdsWaitInfo
  | .waitValue32 addr value cond => .wait (.user addr) value cond
  | .writeValue32 addr value => .write (.user addr) value

end World

/-- The send infos among the descriptors. -/
def descSends (w : World) : List Desc → List (Option SendInfo)
  | [] => []
  | .send p :: rest => (w.mem p).gdsSendInfo :: descSends w rest
  | _ :: rest => descSends w rest

/-- `mp_desc_queue_add_send`. -/
def mpDescQueueAddSend (dq : Nat) (p : Ptr) : M Int := do
  let r ← request p
  Prog.require r.type.tx .assertType
  Prog.require (r.status = .prepared) .assertStatus
  -- as if it was posted, which it is only with the queue
  update fun w => (w.pushDesc dq (.send p)).setStatus p .pendingNowait
  return 0

/-- The common part of the two wait descriptors, past the assertions on the type. -/
def addWaitDesc (dq : Nat) (p : Ptr) : M Int := do
  let r ← request p
  Prog.require (r.status = .pendingNowait || r.status = .complete) .assertStatus
  update fun w => (w.pushDesc dq (.wait p)).setStatus p .pending
  return 0

/-- `mp_desc_queue_add_wait_send`. -/
def mpDescQueueAddWaitSend (dq : Nat) (p : Ptr) : M Int := do
  let r ← request p
  Prog.require r.type.tx .assertType
  Prog.require r.canBeWaited .assertType
  addWaitDesc dq p

/-- `mp_desc_queue_add_wait_recv`. -/
def mpDescQueueAddWaitRecv (dq : Nat) (p : Ptr) : M Int := do
  let r ← request p
  Prog.require r.type.rx .assertType
  addWaitDesc dq p

/-- `mp_desc_queue_add_wait_value32`: the flags are cast to a condition. -/
def mpDescQueueAddWaitValue32 (dq addr value : Nat) (cond : WaitCond) : M Int := do
  update fun w => w.pushDesc dq (.waitValue32 addr value cond)
  return 0

/-- `mp_desc_queue_add_write_value32`. -/
def mpDescQueueAddWriteValue32 (dq addr value : Nat) : M Int := do
  update fun w => w.pushDesc dq (.writeValue32 addr value)
  return 0

/-- `mp_desc_queue_post_on_stream`: the queue is flushed whatever the post returns. -/
def mpDescQueuePostOnStream (s : Stream) (dq : Nat) : M Int := do
  let w ← world
  if w.descQueues dq = [] then return 0
  let ret ← returnCode
  if ret = 0 then
    update fun w => (launchAll w (descSends w (w.descQueues dq))).enqueue s ((w.descQueues dq).map w.descOp)
  update fun w => w.flushDescs dq
  return ret

/-- `mp::mlx5::get_descriptors(send_desc_t)`: a kernel will ring the doorbell. -/
def getSendDescriptors (p : Ptr) : M Int := do
  let r ← request p
  Prog.require (r.status = .prepared) .assertStatus
  if cfg.useEventSync then return mpFailure
  update fun w => w.setReq p fun r => { r with status := .pendingNowait, stream := none }
  let retcode ← returnCode
  if retcode ≠ 0 then return mpFailure
  update fun w => launchAll w [r.gdsSendInfo]
  return 0

/-- `mp::mlx5::get_descriptors(wait_desc_t)`. -/
def getWaitDescriptors (p : Ptr) : M Int := do
  let r ← request p
  let _ ← clientOf cfg r.peer
  Prog.require (r.status = .pendingNowait || r.status = .complete) .assertStatus
  update fun w => w.setReq p fun r => { r with stream := none, status := .pending }
  let retcode ← returnCode
  if retcode ≠ 0 then return mpFailure
  return 0

end LibMp
