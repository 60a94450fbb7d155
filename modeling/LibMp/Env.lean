import LibMp.Prog
import LibMp.Types

/- The calls libmp makes to the outside: libgdsync, the verbs library, the
   clock. Each one takes the next answer of the tape and does what its
   documentation says the call does when it returns 0; a call that fails does
   nothing. A prepared send reaches the HCA's queue when its info is handed to
   a stream, so that is where it can start to complete.

   The streams run concurrently with the process. They touch `last_trigger_id`
   and `last_tracked_id` only, and they run where the process reads the one
   (`progress_posted_list`) or writes the other (the completion loop), and between
   the calls. The runs are no finer than that: a stream that writes between the
   check of `last_trigger_id` and the post, or that passes between the stores of
   `last_tracked_id` and of the status, commutes with neither side and is in none
   of them. -/
namespace LibMp

/-- Programs of the library. -/
abbrev M := Prog Sys Stop

def world : M World := do
  let s ← Prog.get
  return s.w

def update (g : World → World) : M Unit := Prog.modify fun s => { s with w := g s.w }

def request (p : Ptr) : M Request := do
  let w ← world
  return w.mem p

def client (i : Nat) : M Client := do
  let w ← world
  return w.clients i

/-- The next answer of the outside. -/
def answer : M Ans := fun s =>
  match s.tape with
  | [] => (.ok {}, s)
  | a :: tape => (.ok a, { s with tape := tape })

/-- The return code of a call that has no effect here. -/
def returnCode : M Int := do
  let a ← answer
  return a.rc

def runStreams (w : World) : List Gpu → World
  | [] => w
  | g :: rest => runStreams (w.gpu g) rest

/-- A place where the streams may run. -/
def streamsRun : M Unit := do
  let a ← answer
  update fun w => runStreams w a.gpu

/-! ## The HCA -/

namespace World
variable (w : World)

/-- The HCA accepts the work request of the request at `p`: a signaled one
will complete. -/
def accept (c : Nat) (f : Flow) (p : Ptr) : World :=
  { w with
    cq := if (w.mem p).inWr.signaled then
        Function.update w.cq c (Function.update (w.cq c) f
          (w.cq c f ++ [⟨(w.mem p).inWr.wrId, (w.mem p).id⟩]))
      else w.cq
    log := w.log ++ [.accepted c f p (w.mem p).id] }

/-- The HCA queue of a prepared send: the work request is the one captured in
its info. -/
def launch (info : SendInfo) : World :=
  { w with
    cq := if info.wr.signaled then
        Function.update w.cq info.client (Function.update (w.cq info.client) .tx
          (w.cq info.client .tx ++ [⟨info.wr.wrId, info.op⟩]))
      else w.cq
    log := w.log ++ [.accepted info.client .tx info.wr.wrId info.op] }

/-- The send info of the request at `p` becomes the one for its work request,
which is in the queue pair from now on. -/
def fillSend (c : Nat) (p : Ptr) : World :=
  (w.setReq p fun r => { r with gdsSendInfo := some ⟨c, r.id, r.inWr⟩ }).addLog (.prepared c p (w.mem p).id)

/-- The wait info of the request at `p` becomes a new fill. -/
def fillWait (c : Nat) (f : Flow) (p : Ptr) : World :=
  { w.setReq p fun r => { r with gdsWaitInfo := some ⟨w.fills, c, f, r.id⟩ } with fills := w.fills + 1 }

/-- The wait info of the request at `p` is given away. -/
def give (p : Ptr) : World := w.addLog (.given p (w.mem p).id (w.mem p).gdsWaitInfo)

end World

/-- `gds_post_send`. -/
def gdsPostSend (c : Nat) (p : Ptr) : M Int := do
  let rc ← returnCode
  if rc = 0 then update fun w => w.accept c .tx p
  return rc

/-- `gds_post_recv`. -/
def gdsPostRecv (c : Nat) (p : Ptr) : M Int := do
  let rc ← returnCode
  if rc = 0 then update fun w => w.accept c .rx p
  return rc

/-- `gds_stream_queue_send`. -/
def gdsStreamQueueSend (s : Stream) (c : Nat) (p : Ptr) : M Int := do
  let rc ← returnCode
  if rc = 0 then update fun w => (w.accept c .tx p).enqueue s [.queueSend p]
  return rc

/-- `gds_stream_wait_cq`. -/
def gdsStreamWaitCq (s : Stream) (c : Nat) (f : Flow) : M Int := do
  let rc ← returnCode
  if rc = 0 then update fun w => w.enqueue s [.waitLastCq c f]
  return rc

/-- `gds_prepare_send`. -/
def gdsPrepareSend (c : Nat) (p : Ptr) : M Int := do
  let rc ← returnCode
  if rc = 0 then update fun w => w.fillSend c p
  return rc

/-- `gds_prepare_wait_cq`. -/
def gdsPrepareWaitCq (c : Nat) (f : Flow) (p : Ptr) : M Int := do
  let rc ← returnCode
  if rc = 0 then update fun w => w.fillWait c f p
  return rc

/-- `gds_post_wait_cq`. -/
def gdsPostWaitCq (p : Ptr) : M Int := do
  update fun w => w.give p
  returnCode

/-- `gds_stream_post_wait_cq`. -/
def gdsStreamPostWaitCq (s : Stream) (p : Ptr) : M Int := do
  update fun w => w.give p
  let rc ← returnCode
  if rc = 0 then update fun w => w.enqueue s [.waitCq (w.mem p).gdsWaitInfo]
  return rc

/-- `gds_stream_post_wait_cq_all`, on copies of the wait infos of `ps`. -/
def gdsStreamPostWaitCqAll (s : Stream) (ps : List Ptr) (infos : List (Option WaitInfo)) : M Int := do
  update fun w => ps.foldl World.give w
  let rc ← returnCode
  if rc = 0 then update fun w => w.enqueue s (infos.map .waitCq)
  return rc

def launchAll (w : World) : List (Option SendInfo) → World
  | [] => w
  | none :: rest => launchAll w rest
  | some info :: rest => launchAll (w.launch info) rest

/-- `gds_stream_post_send_all`, and with one info `gds_stream_post_send`. -/
def gdsStreamPostSendAll (s : Stream) (infos : List (Option SendInfo)) : M Int := do
  let rc ← returnCode
  if rc = 0 then update fun w => (launchAll w infos).enqueue s (infos.map .send)
  return rc

def gdsStreamPostSend (s : Stream) (info : Option SendInfo) : M Int := gdsStreamPostSendAll s [info]

/-- `gds_stream_post_descriptors` on 32-bit writes and waits. -/
def gdsStreamPostDescriptors (s : Stream) (descs : List StreamOp) : M Int := do
  let rc ← returnCode
  if rc = 0 then update fun w => w.enqueue s descs
  return rc

/-- `mp_check_gpu_error`. -/
def mpCheckGpuError : M Int := do
  let rc ← returnCode
  return if rc = 0 then 0 else mpFailure

/-- Whether more than `MP_PROGRESS_ERROR_CHECK_TMOUT_US` has passed. -/
def timeout : M Bool := do
  let a ← answer
  return a.late

end LibMp
