import LibMp.DescQueue
import LibMp.Linked

/- The calls of mp.h and the runs of a process: calls, each with the answers
   the outside gives it, steps of the streams between them, and work the
   caller enqueues on a stream. A call that stops on an assertion or in
   `exit` ends the run; one that is still in a waiting loop when its answers
   end leaves a state that is observed like any other. -/
namespace LibMp
variable (cfg : Config)

/-- The calls of mp.h (and of mp/device.cuh), with their arguments. -/
inductive Op where
  | isend (buf : Nat) (size : Int) (peer : Nat) (reg : Reg)
  | irecv (buf : Nat) (size : Int) (peer : Nat) (reg : Reg)
  | isendv (v : List Iovec) (peer : Nat) (reg : Reg)
  | irecvv (v : List Iovec) (peer : Nat) (reg : Reg)
  | iput (src : Nat) (size : Int) (reg : Reg) (peer displ : Nat) (win : Window) (flags : Nat)
  | iget (dst : Nat) (size : Int) (reg : Reg) (peer displ : Nat) (win : Window)
  | sendOnStream (buf : Nat) (size : Int) (peer : Nat) (reg : Reg) (s : Stream)
  | isendOnStream (buf : Nat) (size : Int) (peer : Nat) (reg : Reg) (s : Stream)
  | isendvOnStream (v : List Iovec) (peer : Nat) (reg : Reg) (s : Stream)
  | sendPrepare (buf : Nat) (size : Int) (peer : Nat) (reg : Reg)
  | sendvPrepare (v : List Iovec) (peer : Nat) (reg : Reg)
  | sendPost (p : Ptr) (s : Stream)
  | isendPost (p : Ptr) (s : Stream)
  | sendPostAll (ps : List Ptr) (s : Stream)
  | isendPostAll (ps : List Ptr) (s : Stream)
  | putPrepare (src : Nat) (size : Int) (reg : Reg) (peer displ : Nat) (win : Window) (flags : Nat)
  | iputOnStream (src : Nat) (size : Int) (reg : Reg) (peer displ : Nat) (win : Window) (flags : Nat)
      (s : Stream)
  | igetOnStream (dst : Nat) (size : Int) (reg : Reg) (peer displ : Nat) (win : Window) (s : Stream)
  | iputPost (p : Ptr) (s : Stream)
  | iputPostAll (ps : List Ptr) (s : Stream)
  | waitOnStream (p : Ptr) (s : Stream)
  | waitAllOnStream (ps : List Ptr) (s : Stream)
  | waitAll (ps : List Ptr)
  | progressAll (ps : List Ptr)
  | progress (f : Flow)
  | descAddSend (dq : Nat) (p : Ptr)
  | descAddWaitSend (dq : Nat) (p : Ptr)
  | descAddWaitRecv (dq : Nat) (p : Ptr)
  | descAddWaitValue32 (dq addr value : Nat) (cond : WaitCond)
  | descAddWriteValue32 (dq addr value : Nat)
  | descPost (s : Stream) (dq : Nat)
  | getSendDesc (p : Ptr)
  | getWaitDesc (p : Ptr)

/-- A call without a request argument to store. -/
def only (m : M Int) : M (Int × Option Ptr) := do
  let ret ← m
  return (ret, none)

/-- The program of a call: its return code, and the request it stores. -/
def Op.run : Op → M (Int × Option Ptr)
  | .isend buf size peer reg => mpIsend cfg buf size peer reg
  | .irecv buf size peer reg => mpIrecv cfg buf size peer reg
  | .isendv v peer reg => mpIsendv cfg v peer reg
  | .irecvv v peer reg => mpIrecvv cfg v peer reg
  | .iput src size reg peer displ win flags => mpIput cfg src size reg peer displ win flags
  | .iget dst size reg peer displ win => mpIget cfg dst size reg peer displ win
  | .sendOnStream buf size peer reg s => mpSendOnStream cfg buf size peer reg s
  | .isendOnStream buf size peer reg s => mpIsendOnStream cfg buf size peer reg s
  | .isendvOnStream v peer reg s => mpIsendvOnStream cfg v peer reg s
  | .sendPrepare buf size peer reg => mpSendPrepare cfg buf size peer reg
  | .sendvPrepare v peer reg => mpSendvPrepare cfg v peer reg
  | .sendPost p s => only (mpSendPostOnStream cfg p s)
  | .isendPost p s => only (mpIsendPostOnStream cfg p s)
  | .sendPostAll ps s => only (mpSendPostAllOnStream cfg ps s)
  | .isendPostAll ps s => only (mpIsendPostAllOnStream cfg ps s)
  | .putPrepare src size reg peer displ win flags => mpPutPrepare cfg src size reg peer displ win flags
  | .iputOnStream src size reg peer displ win flags s =>
    mpIputOnStream cfg src size reg peer displ win flags s
  | .igetOnStream dst size reg peer displ win s => mpIgetOnStream cfg dst size reg peer displ win s
  | .iputPost p s => only (mpIputPostOnStream p s)
  | .iputPostAll ps s => only (mpIputPostAllOnStream ps s)
  | .waitOnStream p s => only (mpWaitOnStream cfg p s)
  | .waitAllOnStream ps s => only (mpWaitAllOnStream cfg ps s)
  | .waitAll ps => only (mpWaitAll cfg ps)
  | .progressAll ps => only (mpProgressAll cfg ps)
  | .progress f => only (mpProgressSingleFlow cfg f)
  | .descAddSend dq p => only (mpDescQueueAddSend dq p)
  | .descAddWaitSend dq p => only (mpDescQueueAddWaitSend dq p)
  | .descAddWaitRecv dq p => only (mpDescQueueAddWaitRecv dq p)
  | .descAddWaitValue32 dq addr value cond => only (mpDescQueueAddWaitValue32 dq addr value cond)
  | .descAddWriteValue32 dq addr value => only (mpDescQueueAddWriteValue32 dq addr value)
  | .descPost s dq => only (mpDescQueuePostOnStream s dq)
  | .getSendDesc p => only (getSendDescriptors cfg p)
  | .getWaitDesc p => only (getWaitDescriptors cfg p)

/-- The stream and the requests of a wait on a stream. -/
def Op.streamWait : Op → Option (Stream × List Ptr)
  | .waitOnStream p s => some (s, [p])
  | .waitAllOnStream ps s => some (s, ps)
  | _ => none

/-- Note in the log that a wait for `ps` on `s` returned 0. -/
def World.noteWaits (w : World) (s : Stream) : List Ptr → World
  | [] => w
  | p :: rest =>
    (w.addLog (.waited ((cfg.clientIndex (w.mem p).peer).getD 0) (w.mem p).type.flow p (w.mem p).id s
      (w.streams s).count)).noteWaits s rest

/-- One event of a run. -/
inductive Event where
  | call (op : Op) (tape : List Ans)
  | gpu (g : Gpu)
  | work (s : Stream) (tag : Nat)

/-- A call and what it leaves. -/
def Op.exec (op : Op) (tape : List Ans) (w : World) : Except Stop (Int × Option Ptr) × World :=
  match op.run cfg ⟨w, tape⟩ with
  | (.ok (ret, req), s) =>
    match op.streamWait with
    | some (st, ps) => (.ok (ret, req), if ret = 0 then s.w.noteWaits cfg st ps else s.w)
    | none => (.ok (ret, req), s.w)
  | (.error e, s) => (.error e, s.w)

def Event.exec (w : World) : Event → Except Stop (Int × Option Ptr) × World
  | .call op tape => op.exec cfg tape w
  | .gpu g => (.ok (0, none), w.gpu g)
  | .work s tag => (.ok (0, none), w.enqueue s [.work tag])

/-- Whether the process still runs: the call came back, or is in a loop. -/
def alive : Except Stop (Int × Option Ptr) → Prop
  | .ok _ => True
  | .error e => e = .spinning

instance : DecidablePred alive := fun r =>
  match r with
  | .ok _ => isTrue trivial
  | .error e => inferInstanceAs (Decidable (e = .spinning))

/-- The world before `mp_init` allocates requests. -/
def World.empty : World where
  mem := fun _ => {}
  frontier := 0
  memRegionList := []
  mpRequestFreeList := none
  clients := fun _ => {}
  cq := fun _ _ => []
  streams := fun _ => {}
  userWord := fun _ => 0
  descQueues := fun _ => []
  fills := 0
  log := []

/-- The world `mp_init` leaves. -/
def World.init : World := World.empty.allocateRequests

/-- The worlds of the runs whose events all satisfy `ok` where they happen. -/
inductive Reach (ok : Event → World → Prop) : World → Prop where
  | init : Reach ok World.init
  | step {w : World} (ev : Event) : Reach ok w → ok ev w → alive (ev.exec cfg w).1 →
      Reach ok (ev.exec cfg w).2

/-- The world after a list of events. -/
def World.after (w : World) : List Event → World
  | [] => w
  | ev :: rest => World.after (ev.exec cfg w).2 rest

/-- The process survives these events, and each satisfies `ok` where it happens. -/
def AllOk (ok : Event → World → Prop) (w : World) : List Event → Prop
  | [] => True
  | ev :: rest => ok ev w ∧ alive (ev.exec cfg w).1 ∧ AllOk ok (ev.exec cfg w).2 rest

theorem Reach.after {ok : Event → World → Prop} {w : World} {evs : List Event} (h : Reach cfg ok w)
    (hok : AllOk cfg ok w evs) : Reach cfg ok (w.after cfg evs) := by
  induction evs generalizing w with
  | nil => exact h
  | cons ev rest ih => exact ih (h.step ev hok.1 hok.2.1) hok.2.2

/-- The requests on the free list, as following `next` finds them. -/
def FreeList (w : World) (l : List Ptr) : Prop := Linked (fun p => (w.mem p).next) w.mpRequestFreeList l

/-- A request of the pool that is not on the free list. -/
def Live (w : World) (p : Ptr) : Prop := p < w.frontier ∧ ∀ l, FreeList w l → p ∉ l

end LibMp
