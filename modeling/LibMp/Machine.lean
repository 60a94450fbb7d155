import LibMp.Api

/- The request machine: what one step of the library can do to the pool, the
   posted lists, the completion queues and the streams, and under which
   conditions the code does it.

   A state of the machine is a world and the request in the hands of the
   running call (`cur`): one it has taken from the pool and not yet handed to
   the HCA or to a posted list, or a prepared one it is about to append. The
   code has no such variable; it is what makes "this request was taken by this
   very call" a condition on the state, so that it can be stated for a request
   that waits while the posting call progresses other requests.

   `Move K` is the step relation: `Step` lists the steps with the conditions
   the code checks or establishes just before, and `K` restricts them further
   (a usage condition). `Follows` says that the machine follows a program of
   the library. -/
namespace LibMp
variable (cfg : Config)

/-! ## Updates read back -/

namespace World
variable (w : World)

@[simp] theorem setReq_mem (p q : Ptr) (g : Request → Request) :
    (w.setReq p g).mem q = if q = p then g (w.mem p) else w.mem q := by
  simp [setReq, Function.update_apply]

/-- An update of one request, under a reflexive relation. -/
theorem setReq_rel {R : Request → Request → Prop} (hrefl : ∀ r, R r r) {p : Ptr} {g : Request → Request}
    (hg : R (w.mem p) (g (w.mem p))) (q : Ptr) : R (w.mem q) ((w.setReq p g).mem q) := by
  rw [setReq_mem]
  split
  · rename_i hq
    rw [hq]
    exact hg
  · exact hrefl _

@[simp] theorem setReq_clients (p : Ptr) (g : Request → Request) : (w.setReq p g).clients = w.clients := rfl
@[simp] theorem setReq_cq (p : Ptr) (g : Request → Request) : (w.setReq p g).cq = w.cq := rfl
@[simp] theorem setReq_streams (p : Ptr) (g : Request → Request) : (w.setReq p g).streams = w.streams := rfl
@[simp] theorem setReq_frontier (p : Ptr) (g : Request → Request) :
    (w.setReq p g).frontier = w.frontier := rfl
@[simp] theorem setReq_free (p : Ptr) (g : Request → Request) :
    (w.setReq p g).mpRequestFreeList = w.mpRequestFreeList := rfl
@[simp] theorem setReq_log (p : Ptr) (g : Request → Request) : (w.setReq p g).log = w.log := rfl

@[simp] theorem setClient_clients (i j : Nat) (g : Client → Client) :
    (w.setClient i g).clients j = if j = i then g (w.clients i) else w.clients j := by
  simp [setClient, Function.update_apply]

/-- An update of one client. -/
theorem setClient_rel {R : Client → Client → Prop} (hrefl : ∀ cl, R cl cl) {i : Nat} {g : Client → Client}
    (hg : R (w.clients i) (g (w.clients i))) (j : Nat) : R (w.clients j) ((w.setClient i g).clients j) := by
  rw [setClient_clients]
  split
  · rename_i hj
    rw [hj]
    exact hg
  · exact hrefl _

@[simp] theorem setClient_mem (i : Nat) (g : Client → Client) : (w.setClient i g).mem = w.mem := rfl
@[simp] theorem setClient_cq (i : Nat) (g : Client → Client) : (w.setClient i g).cq = w.cq := rfl
@[simp] theorem setClient_streams (i : Nat) (g : Client → Client) :
    (w.setClient i g).streams = w.streams := rfl
@[simp] theorem setClient_frontier (i : Nat) (g : Client → Client) :
    (w.setClient i g).frontier = w.frontier := rfl
@[simp] theorem setClient_free (i : Nat) (g : Client → Client) :
    (w.setClient i g).mpRequestFreeList = w.mpRequestFreeList := rfl
@[simp] theorem setClient_log (i : Nat) (g : Client → Client) : (w.setClient i g).log = w.log := rfl

@[simp] theorem addLog_log (e : LogEv) : (w.addLog e).log = w.log ++ [e] := rfl
@[simp] theorem addLog_mem (e : LogEv) : (w.addLog e).mem = w.mem := rfl
@[simp] theorem addLog_clients (e : LogEv) : (w.addLog e).clients = w.clients := rfl
@[simp] theorem addLog_cq (e : LogEv) : (w.addLog e).cq = w.cq := rfl
@[simp] theorem addLog_streams (e : LogEv) : (w.addLog e).streams = w.streams := rfl
@[simp] theorem addLog_frontier (e : LogEv) : (w.addLog e).frontier = w.frontier := rfl
@[simp] theorem addLog_free (e : LogEv) : (w.addLog e).mpRequestFreeList = w.mpRequestFreeList := rfl

@[simp] theorem enqueue_mem (s : Stream) (ops : List StreamOp) : (w.enqueue s ops).mem = w.mem := rfl
@[simp] theorem enqueue_clients (s : Stream) (ops : List StreamOp) :
    (w.enqueue s ops).clients = w.clients := rfl
@[simp] theorem enqueue_cq (s : Stream) (ops : List StreamOp) : (w.enqueue s ops).cq = w.cq := rfl
@[simp] theorem enqueue_log (s : Stream) (ops : List StreamOp) : (w.enqueue s ops).log = w.log := rfl
@[simp] theorem enqueue_frontier (s : Stream) (ops : List StreamOp) :
    (w.enqueue s ops).frontier = w.frontier := rfl
@[simp] theorem enqueue_free (s : Stream) (ops : List StreamOp) :
    (w.enqueue s ops).mpRequestFreeList = w.mpRequestFreeList := rfl
@[simp] theorem enqueue_streams (s t : Stream) (ops : List StreamOp) : (w.enqueue s ops).streams t =
    if t = s then ⟨(w.streams s).done, (w.streams s).todo ++ ops⟩ else w.streams t := by
  simp [enqueue, Function.update_apply]

theorem enqueue_nil (s : Stream) : w.enqueue s [] = w := by simp [enqueue]

theorem enqueue_enqueue (s : Stream) (ops₁ ops₂ : List StreamOp) :
    (w.enqueue s ops₁).enqueue s ops₂ = w.enqueue s (ops₁ ++ ops₂) := by
  simp [enqueue, Function.update_idem]

end World

/-! ## The free list -/

/-- A new region is free, in the order of its requests. -/
theorem freeList_allocate (w : World) : FreeList w.allocateRequests (List.range' w.frontier mpRequestLimit) := by
  have hl : Linked (fun q => (w.allocateRequests.mem q).next)
      (if w.frontier < w.frontier + mpRequestLimit then some w.frontier else none)
      (List.range' w.frontier mpRequestLimit) := by
    refine Linked.range' mpRequestLimit w.frontier rfl ?_
    intro q h1 h2
    simp only [World.allocateRequests]
    rw [if_pos ⟨h1, h2⟩]
  rwa [if_pos (by simp [mpRequestLimit])] at hl

/-- The free list starts with the request that is taken next. -/
theorem FreeList.cons_of_refill {w : World} {l : List Ptr} (h : FreeList w.refill l) : ∃ fl', l = w.nextFree :: fl' := by
  unfold FreeList at h
  rw [w.refill_free] at h
  obtain ⟨fl', rfl, -⟩ := h.eq_cons
  exact ⟨fl', rfl⟩

/-- The requests below the new region are those that were there before. -/
theorem lt_region_iff {fr q : Nat} :
    q < fr + mpRequestLimit ∧ q ∉ List.range' fr mpRequestLimit ↔ q < fr := by
  rw [List.mem_range'_1]
  constructor
  · rintro ⟨hlt, hnot⟩
    by_contra hge
    exact hnot ⟨Nat.le_of_not_lt hge, hlt⟩
  · intro hlt
    exact ⟨Nat.lt_of_lt_of_le hlt (Nat.le_add_right _ _), fun hm => absurd hlt (Nat.not_lt.mpr hm.1)⟩

/-- What is put back is the first free request. -/
theorem FreeList.release {w : World} {fl : List Ptr} (h : FreeList w fl) {p : Ptr} (hp : p ∉ fl) :
    FreeList (w.release p) (p :: fl) := by
  refine Linked.cons_iff.mpr ⟨rfl, ?_⟩
  have hnext : ((w.release p).mem p).next = w.mpRequestFreeList := by simp [World.release]
  rw [hnext]
  refine Linked.frame h ?_
  intro q hq
  have hne : q ≠ p := fun he => hp (he ▸ hq)
  simp [World.release, hne]

/-! ## The world after a request was taken -/

namespace World
variable (w : World) (fn : Fn) (c rank : Nat) (type : ReqType) (st : State)

/-- A new region changes the links of its requests. -/
theorem refill_mem (q : Ptr) : ∃ n, w.refill.mem q = { w.mem q with next := n } := by
  unfold refill
  split
  · simp only [allocateRequests]
    split
    · exact ⟨_, rfl⟩
    · exact ⟨_, rfl⟩
  · exact ⟨_, rfl⟩

theorem refill_rest :
    w.refill.cq = w.cq ∧ w.refill.streams = w.streams ∧ w.refill.log = w.log ∧ w.refill.fills = w.fills := by
  unfold refill
  split
  · exact ⟨rfl, rfl, rfl, rfl⟩
  · exact ⟨rfl, rfl, rfl, rfl⟩

theorem take_mem :
    ((w.take fn c rank type st).mem w.nextFree).type = type ∧
    ((w.take fn c rank type st).mem w.nextFree).peer = rank ∧
    ((w.take fn c rank type st).mem w.nextFree).status = st ∧
    ((w.take fn c rank type st).mem w.nextFree).owner = some fn ∧
    ((w.take fn c rank type st).mem w.nextFree).flags = 0 ∧
    ((w.take fn c rank type st).mem w.nextFree).trigger = false ∧
    ((w.take fn c rank type st).mem w.nextFree).id = (w.clients c).lastReqId + 1 := by
  simp [take]

theorem take_links : ((w.take fn c rank type st).mem w.nextFree).next = none ∧
    ((w.take fn c rank type st).mem w.nextFree).prev = none := by
  simp [take]

theorem take_other {q : Ptr} (hq : q ≠ w.nextFree) : (w.take fn c rank type st).mem q = w.refill.mem q := by
  simp [take, popFree, bumpReqId, hq]

theorem take_clients (d : Nat) : (w.take fn c rank type st).clients d =
    if d = c then { w.clients c with lastReqId := (w.clients c).lastReqId + 1 } else w.clients d := by
  simp only [take, popFree, bumpReqId, setReq_clients, setClient_clients, refill_clients]

theorem take_cq : (w.take fn c rank type st).cq = w.cq := w.refill_rest.1

theorem take_streams : (w.take fn c rank type st).streams = w.streams := w.refill_rest.2.1

theorem take_log : (w.take fn c rank type st).log = w.log := w.refill_rest.2.2.1

theorem take_fills : (w.take fn c rank type st).fills = w.fills := w.refill_rest.2.2.2

end World

theorem FreeList.take {w : World} {fn : Fn} {c rank : Nat} {type : ReqType} {st : State} {fl : List Ptr}
    (h : FreeList w.refill (w.nextFree :: fl)) (hnot : w.nextFree ∉ fl) : FreeList (w.take fn c rank type st) fl := by
  refine Linked.frame (Linked.cons_iff.mp h).2 ?_
  intro q hq
  have hne : q ≠ w.nextFree := fun he => hnot (he ▸ hq)
  rw [w.take_other _ _ _ _ _ hne]

/-- The work request names its request, and is signaled unless the request is
a put that is not to be waited for. -/
def Request.WrOk (p : Ptr) (r : Request) : Prop :=
  r.inWr.wrId = p ∧ r.inWr.signaled = !nowait r.flags

/-- What accepting adds to the completion queues. -/
theorem World.accept_cq {w : World} {p : Ptr} (hw : (w.mem p).WrOk p) (c d : Nat) (f g : Flow) :
    (w.accept c f p).cq d g =
      if d = c ∧ g = f ∧ nowait (w.mem p).flags = false then w.cq c f ++ [⟨p, (w.mem p).id⟩] else w.cq d g := by
  obtain ⟨hid, hsig⟩ := hw
  unfold World.accept
  simp only [hid, hsig]
  cases hn : nowait (w.mem p).flags with
  | true => simp
  | false =>
    by_cases hd : d = c
    · subst hd
      by_cases hg : g = f
      · subst hg; simp
      · simp [hg]
    · simp [hd]

/-- The calls that store flags into the request. -/
def Fn.isPut : Fn → Bool
  | .mpIput | .mpPutPrepare | .mpIputOnStream => true
  | _ => false

/-- The flow of the requests a call makes. -/
def Fn.flow : Fn → Flow
  | .mpIrecv | .mpIrecvv => .rx
  | _ => .tx

/-- What filling in the work request leaves alone. -/
def Request.SameLife (r r' : Request) : Prop :=
  r'.type = r.type ∧ r'.peer = r.peer ∧ r'.status = r.status ∧ r'.trigger = r.trigger ∧ r'.id = r.id ∧
    r'.next = r.next ∧ r'.prev = r.prev ∧ r'.owner = r.owner ∧ r'.gdsWaitInfo = r.gdsWaitInfo ∧
    (∀ fn, r.owner = some fn → fn.isPut = false → r'.flags = r.flags)

/-- The request the running call holds: its status, and whether its work
request has been filled in. -/
structure Cur where
  ptr : Ptr
  st : State
  built : Bool

/-- A state of the machine. -/
structure Mach where
  w : World
  cur : Option Cur

/-- The steps, named by what they act on. -/
inductive Lbl where
  | take (fn : Fn) (c : Nat)
  | build (p : Ptr)
  | accept (c : Nat) (f : Flow) (p : Ptr)
  | fill (p : Ptr)
  | reap (c : Nat) (f : Flow) (k : Nat)
  | handOver (c : Nat) (f : Flow) (p : Ptr)
  | gpu (s : Stream)
  | store (c v : Nat)
  | stamp (c : Nat) (p : Ptr)
  | track (c : Nat) (p : Ptr) (s : Stream)
  | arm (c : Nat) (f : Flow) (p : Ptr)
  | armTail (c : Nat) (p : Ptr)
  | enqueue (s : Stream) (ops : List StreamOp)
  | waitCpu (p : Ptr)
  | waitStream (p : Ptr)
  | give (p : Ptr)
  | touch (p : Ptr)
  | push (dq : Nat)
  | note (c : Nat) (f : Flow) (p : Ptr) (s : Stream)
  | release (p : Ptr)
  | leave

/-- The client and the flow of the request at `p`. -/
def World.At (w : World) (p : Ptr) (c : Nat) (f : Flow) : Prop :=
  cfg.clientIndex (w.mem p).peer = some c ∧ (w.mem p).type ≠ .null ∧ (w.mem p).type.flow = f

/-- The condition of the assertion on `last_tracked_id`. -/
def World.TrackedOk (w : World) (c : Nat) (f : Flow) (p : Ptr) : Prop :=
  cfg.useEventSync = true → (w.mem p).trigger = true → (w.clients c).lastTrackedId f < (w.mem p).id

/-- Whether the status is one a completion can find. -/
def State.isPending : State → Prop
  | .pendingNowait | .pending => True
  | _ => False

/-- One step of the machine. `Good` restricts the answers of the outside. -/
inductive Step (Good : Ans → Prop) : Lbl → Mach → Mach → Prop where
  | take {w} (fn : Fn) (c : Nat) (type : ReqType) (st : State) :
      cfg.clientIndex (cfg.mpiRank c) = some c → type ≠ .null → type.flow = fn.flow → st = .prepared ∨ st.isPending →
      (fn = .mpSendPrepare → st = .prepared) →
      Step Good (.take fn c) ⟨w, none⟩ ⟨w.take fn c (cfg.mpiRank c) type st, some ⟨w.nextFree, st, false⟩⟩
  | build {w st b p} (g : Request → Request) :
      (w.mem p).SameLife (g (w.mem p)) → (g (w.mem p)).WrOk p →
      Step Good (.build p) ⟨w, some ⟨p, st, b⟩⟩ ⟨w.setReq p g, some ⟨p, st, true⟩⟩
  | accept {w st c f p} : st.isPending → w.At cfg p c f →
      Step Good (.accept c f p) ⟨w, some ⟨p, st, true⟩⟩ ⟨w.accept c f p, none⟩
  | fill {w cur c f p} : Step Good (.fill p) ⟨w, cur⟩ ⟨w.fillWait c f p, cur⟩
  | reap {w cur c f k wr ans} : (w.cq c f)[k]? = some wr → (w.mem wr.wrId).status.isPending →
      w.TrackedOk cfg c f wr.wrId → Good ans → k ∈ ans.picks →
      Step Good (.reap c f k) ⟨w, cur⟩ ⟨w.complete cfg c f k wr, cur⟩
  | handOver {w cur c f p} : cfg.useEventSync = true → (w.clients c).postedStreamReq f = some p →
      (w.mem p).id ≤ (w.clients c).lastTriggerId f → (w.mem p).status = .prepared →
      Step Good (.handOver c f p) ⟨w, cur⟩ ⟨(w.accept c .tx p).handOver c f p, cur⟩
  | gpu {w cur s} : Step Good (.gpu s) ⟨w, cur⟩ ⟨w.gpuStep s, cur⟩
  | store {w cur c v ans} : Good ans → .store c v ∈ ans.gpu →
      Step Good (.store c v) ⟨w, cur⟩ ⟨w.setWord v (.lastTriggerId c .tx), cur⟩
  | stamp {w cur c p} : cfg.useEventSync = true → w.At cfg p c .tx →
      (cur = some ⟨p, .prepared, true⟩ ∨ ((w.mem p).owner = some .mpSendPrepare ∧ cur = none ∧
        (w.clients c).lastPostedTriggerId .tx < (w.mem p).id)) →
      Step Good (.stamp c p) ⟨w, cur⟩ ⟨w.stamp c .tx p, some ⟨p, .prepared, true⟩⟩
  | track {w c p s} : cfg.useEventSync = true → w.At cfg p c .tx → nowait (w.mem p).flags = false →
      (w.clients c).lastPostedTriggerId .tx = (w.mem p).id → w.appendOk c .tx p = true →
      Step Good (.track c p s) ⟨w, some ⟨p, .prepared, true⟩⟩
        ⟨(w.append c .tx p).addLog (.tracked c p (w.mem p).id s), none⟩
  | arm {w cur c f p} : cfg.useEventSync = true → w.At cfg p c f → (w.mem p).owner ≠ none →
      (w.mem p).status ≠ .complete → (w.clients c).lastPostedTrackedId f < (w.mem p).id →
      Step Good (.arm c f p) ⟨w, cur⟩ ⟨w.arm c f p, cur⟩
  | armTail {w cur c p} : cfg.useEventSync = true → w.At cfg p c .tx →
      (w.clients c).lastPostedStreamReq .tx = some p → (w.clients c).lastPostedTrackedId .tx < (w.mem p).id →
      Step Good (.armTail c p) ⟨w, cur⟩ ⟨w.arm c .tx p, cur⟩
  | enqueue {w cur s ops} : (∀ c f v, .write (.lastTrackedId c f) v ∉ ops) →
      (∀ c f v cond, .wait (.lastTrackedId c f) v cond ∈ ops → cond = .geq ∧
        ∃ p, w.At cfg p c f ∧ (w.mem p).owner ≠ none ∧ (w.mem p).id = v ∧ (w.mem p).trigger = true) →
      Step Good (.enqueue s ops) ⟨w, cur⟩ ⟨w.enqueue s ops, cur⟩
  | waitCpu {w p} : (w.mem p).status = .pendingNowait →
      Step Good (.waitCpu p) ⟨w, none⟩
        ⟨w.setReq p fun r => { r with stream := none, status := .pending }, none⟩
  | waitStream {w p} (s : Option Stream) : cfg.useEventSync = false →
      ((w.mem p).status = .pendingNowait ∨ (w.mem p).status = .complete) →
      Step Good (.waitStream p) ⟨w, none⟩ ⟨w.setReq p fun r => { r with stream := s, status := .pending }, none⟩
  | give {w cur p} : Step Good (.give p) ⟨w, cur⟩ ⟨w.give p, cur⟩
  | touch {w cur p} (s : Option Stream) :
      Step Good (.touch p) ⟨w, cur⟩ ⟨w.setReq p fun r => { r with stream := s }, cur⟩
  | push {w cur dq} (d : List Desc) :
      Step Good (.push dq) ⟨w, cur⟩ ⟨{ w with descQueues := Function.update w.descQueues dq d }, cur⟩
  | note {w cur c f p s} :
      Step Good (.note c f p s) ⟨w, cur⟩
        ⟨w.addLog (.waited c f p (w.mem p).id s (w.streams s).count), cur⟩
  | release {w p} : (w.mem p).status = .complete → Step Good (.release p) ⟨w, none⟩ ⟨w.release p, none⟩
  | leave {w p st} : Step Good .leave ⟨w, some ⟨p, st, true⟩⟩ ⟨w, none⟩

/-- The steps that satisfy `K`. -/
def Move (Good : Ans → Prop) (K : Lbl → Mach → Prop) (a b : Mach) : Prop := ∃ l, K l a ∧ Step cfg Good l a b

/-- The machine state represents a process whose remaining answers are good. -/
def Represents (Good : Ans → Prop) (a : Mach) (s : Sys) : Prop := a.w = s.w ∧ ∀ ans ∈ s.tape, Good ans

/-- The running call holds no request whose work request is not filled in. -/
def Mach.Built (a : Mach) : Prop := ∀ p st, a.cur ≠ some ⟨p, st, false⟩

/-- Where the machine is when a call stops: a call in a loop is represented
like one that came back; the two stops on a completion say what they found. -/
def Halt (Good : Ans → Prop) : Stop → Mach → Sys → Prop
  | .spinning, a, s => a.w = s.w ∧ a.Built
  | .exitStatus, a, _ => ∃ c f wr, wr ∈ a.w.cq c f ∧ ¬ (a.w.mem wr.wrId).status.isPending
  | .assertTracked, a, _ => ∃ c f k wr ans, (a.w.cq c f)[k]? = some wr ∧ ¬ a.w.TrackedOk cfg c f wr.wrId ∧
      Good ans ∧ k ∈ ans.picks
  | _, _, _ => True

/-- From the state `a` the machine follows the program `m` by steps that
satisfy `K`. -/
def Follows {α : Type} (Good : Ans → Prop) (K : Lbl → Mach → Prop) (a : Mach) (m : M α)
    (Q : α → Mach → Prop) : Prop :=
  Sim (Represents Good) (Move cfg Good K) (Halt cfg Good) (fun b _ => b = a) m (fun x b _ => Q x b)

end LibMp
