import LibMp.Machine
import Mathlib.Data.List.Nodup
import Mathlib.Data.Nat.Basic

/- The invariant of the pool, the posted lists and the completion queues.

   `Core a fl pl`: the free list is `fl`, the posted list of client `c` is
   `pl c`, and every request is in one place only: on the free list, in the
   posted list of its client, in the completion queue of its client and flow,
   in the hands of the running call, or with the caller. -/
namespace LibMp
variable (cfg : Config)

/-- The request at `p` is in no completion queue and in no posted list. -/
def World.Idle (w : World) (pl : Nat → List Ptr) (p : Ptr) : Prop :=
  (∀ c f, ∀ wr ∈ w.cq c f, wr.wrId ≠ p) ∧ (∀ c, p ∉ pl c) ∧ (w.mem p).next = none ∧ (w.mem p).prev = none

/-- See the head of the file. -/
structure Core (a : Mach) (fl : List Ptr) (pl : Nat → List Ptr) : Prop where
  free : FreeList a.w fl
  free_nodup : fl.Nodup
  free_lt : ∀ p ∈ fl, p < a.w.frontier
  owner : ∀ p, (a.w.mem p).owner ≠ none ↔ p < a.w.frontier ∧ p ∉ fl
  free_status : ∀ p, (a.w.mem p).owner = none → (a.w.mem p).status = .undef
  posted : ∀ c, Dll (fun p => (a.w.mem p).next) (fun p => (a.w.mem p).prev)
    ((a.w.clients c).postedStreamReq .tx) ((a.w.clients c).lastPostedStreamReq .tx) (pl c)
  posted_rx : ∀ c, (a.w.clients c).postedStreamReq .rx = none
  posted_sorted : ∀ c, (pl c).Pairwise fun p q => (a.w.mem p).id < (a.w.mem q).id
  posted_mem : ∀ c, ∀ p ∈ pl c, (a.w.mem p).owner ≠ none ∧ a.w.At cfg p c .tx ∧
    (a.w.mem p).status = .prepared ∧ nowait (a.w.mem p).flags = false ∧
    (a.w.mem p).id ≤ (a.w.clients c).lastPostedTriggerId .tx
  cq_mem : ∀ c f, ∀ wr ∈ a.w.cq c f, (a.w.mem wr.wrId).owner ≠ none ∧ a.w.At cfg wr.wrId c f ∧
    (a.w.mem wr.wrId).id = wr.op ∧ (a.w.mem wr.wrId).status.isPending
  cq_nodup : ∀ c f, ((a.w.cq c f).map Wr.wrId).Nodup
  cur_ok : ∀ k, a.cur = some k → (a.w.mem k.ptr).owner ≠ none ∧ (a.w.mem k.ptr).status = k.st ∧
    a.w.Idle pl k.ptr ∧ ∀ c f, a.w.At cfg k.ptr c f →
      (a.w.clients c).lastPostedTriggerId .tx ≤ (a.w.mem k.ptr).id ∧
      ∀ q ∈ pl c, (a.w.mem q).id < (a.w.mem k.ptr).id
  prepared_ok : ∀ p c, (a.w.mem p).owner = some .mpSendPrepare → a.w.At cfg p c .tx →
    (a.w.clients c).lastPostedTriggerId .tx < (a.w.mem p).id →
    (a.w.mem p).status = .prepared ∧ a.w.Idle pl p
  id_le : ∀ p c, (a.w.mem p).owner ≠ none → cfg.clientIndex (a.w.mem p).peer = some c →
    (a.w.mem p).id ≤ (a.w.clients c).lastReqId
  posted_le : ∀ c, (a.w.clients c).lastPostedTriggerId .tx ≤ (a.w.clients c).lastReqId
  wr_ok : ∀ p, (a.w.mem p).owner ≠ none →
    (∃ st, a.cur = some ⟨p, st, false⟩) ∨ (a.w.mem p).WrOk p
  flags_ok : ∀ p fn, (a.w.mem p).owner = some fn → fn.isPut = false → (a.w.mem p).flags = 0
  type_ok : ∀ p fn, (a.w.mem p).owner = some fn → (a.w.mem p).type ≠ .null ∧ (a.w.mem p).type.flow = fn.flow

/-- Some request lists make the invariant true. -/
def CoreInv (a : Mach) : Prop := ∃ fl pl, Core cfg a fl pl

/-- What a step makes of the posted lists. -/
def Lbl.posted (pl : Nat → List Ptr) : Lbl → Nat → List Ptr
  | .track c p _ => Function.update pl c (pl c ++ [p])
  | .handOver c _ _ => Function.update pl c (pl c).tail
  | _ => pl

/-! ## Worlds with the same lists -/

/-- The fields of a request that `Core` reads, its status apart. -/
structure ReqView where
  type : ReqType
  peer : Nat
  id : Nat
  flags : Nat
  inWr : InWr
  next : Option Ptr
  prev : Option Ptr
  owner : Option Fn

def Request.view (r : Request) : ReqView := ⟨r.type, r.peer, r.id, r.flags, r.inWr, r.next, r.prev, r.owner⟩

/-- The fields of a client that `Core` reads. -/
structure ClientView where
  lastReqId : Nat
  lastPostedTriggerId : Flow → Nat
  postedStreamReq : Flow → Option Ptr
  lastPostedStreamReq : Flow → Option Ptr

def Client.view (cl : Client) : ClientView :=
  ⟨cl.lastReqId, cl.lastPostedTriggerId, cl.postedStreamReq, cl.lastPostedStreamReq⟩

/-- The two worlds agree on everything `Core` reads but the status of the
requests and the completion queues. -/
structure SameLists (w w' : World) : Prop where
  frontier : w'.frontier = w.frontier
  free : w'.mpRequestFreeList = w.mpRequestFreeList
  client : ∀ c, (w'.clients c).view = (w.clients c).view
  req : ∀ p, (w'.mem p).view = (w.mem p).view

namespace SameLists
variable {w w' w₁ w₂ w₃ : World}

theorem type (h : SameLists w w') (p : Ptr) : (w'.mem p).type = (w.mem p).type :=
  congrArg ReqView.type (h.req p)

theorem peer (h : SameLists w w') (p : Ptr) : (w'.mem p).peer = (w.mem p).peer :=
  congrArg ReqView.peer (h.req p)

theorem id (h : SameLists w w') (p : Ptr) : (w'.mem p).id = (w.mem p).id :=
  congrArg ReqView.id (h.req p)

theorem flags (h : SameLists w w') (p : Ptr) : (w'.mem p).flags = (w.mem p).flags :=
  congrArg ReqView.flags (h.req p)

theorem inWr (h : SameLists w w') (p : Ptr) : (w'.mem p).inWr = (w.mem p).inWr :=
  congrArg ReqView.inWr (h.req p)

theorem next (h : SameLists w w') (p : Ptr) : (w'.mem p).next = (w.mem p).next :=
  congrArg ReqView.next (h.req p)

theorem prev (h : SameLists w w') (p : Ptr) : (w'.mem p).prev = (w.mem p).prev :=
  congrArg ReqView.prev (h.req p)

theorem owner (h : SameLists w w') (p : Ptr) : (w'.mem p).owner = (w.mem p).owner :=
  congrArg ReqView.owner (h.req p)

theorem reqId (h : SameLists w w') (c : Nat) : (w'.clients c).lastReqId = (w.clients c).lastReqId :=
  congrArg ClientView.lastReqId (h.client c)

theorem trigger (h : SameLists w w') (c : Nat) :
    (w'.clients c).lastPostedTriggerId = (w.clients c).lastPostedTriggerId :=
  congrArg ClientView.lastPostedTriggerId (h.client c)

theorem posted (h : SameLists w w') (c : Nat) :
    (w'.clients c).postedStreamReq = (w.clients c).postedStreamReq :=
  congrArg ClientView.postedStreamReq (h.client c)

theorem lastPosted (h : SameLists w w') (c : Nat) :
    (w'.clients c).lastPostedStreamReq = (w.clients c).lastPostedStreamReq :=
  congrArg ClientView.lastPostedStreamReq (h.client c)

theorem refl (w : World) : SameLists w w := ⟨rfl, rfl, fun _ => rfl, fun _ => rfl⟩

theorem trans (h₁ : SameLists w₁ w₂) (h₂ : SameLists w₂ w₃) : SameLists w₁ w₃ :=
  ⟨h₂.frontier.trans h₁.frontier, h₂.free.trans h₁.free,
    fun c => (h₂.client c).trans (h₁.client c), fun p => (h₂.req p).trans (h₁.req p)⟩

theorem setReq (w : World) (p : Ptr) (g : Request → Request) (h : ∀ r, (g r).view = r.view) :
    SameLists w (w.setReq p g) := by
  refine ⟨rfl, rfl, fun _ => rfl, fun q => ?_⟩
  exact w.setReq_rel (R := fun r r' => r'.view = r.view) (fun _ => rfl) (h _) q

theorem setClient (w : World) (c : Nat) (g : Client → Client) (h : ∀ cl, (g cl).view = cl.view) :
    SameLists w (w.setClient c g) := by
  refine ⟨rfl, rfl, fun d => ?_, fun _ => rfl⟩
  exact w.setClient_rel (R := fun a b => b.view = a.view) (fun _ => rfl) (h _) d

theorem at_iff {cfg : Config} (h : SameLists w w') {p : Ptr} {c : Nat} {f : Flow} :
    w'.At cfg p c f ↔ w.At cfg p c f := by
  simp only [World.At, h.peer, h.type]

end SameLists

/-- The two worlds agree on everything `Core` reads. -/
structure SameCore (w w' : World) : Prop extends SameLists w w' where
  cq : w'.cq = w.cq
  status : ∀ p, (w'.mem p).status = (w.mem p).status

namespace SameCore
variable {w w₁ w₂ w₃ : World}

theorem refl (w : World) : SameCore w w := ⟨.refl w, rfl, fun _ => rfl⟩

theorem trans (h₁ : SameCore w₁ w₂) (h₂ : SameCore w₂ w₃) : SameCore w₁ w₃ :=
  ⟨h₁.toSameLists.trans h₂.toSameLists, h₂.cq.trans h₁.cq, fun p => (h₂.status p).trans (h₁.status p)⟩

theorem setReq (w : World) (p : Ptr) (g : Request → Request) (h : ∀ r, (g r).view = r.view)
    (hs : ∀ r, (g r).status = r.status) : SameCore w (w.setReq p g) := by
  refine ⟨.setReq w p g h, rfl, fun q => ?_⟩
  exact w.setReq_rel (R := fun r r' => r'.status = r.status) (fun _ => rfl) (hs _) q

theorem setClient (w : World) (c : Nat) (g : Client → Client) (h : ∀ cl, (g cl).view = cl.view) :
    SameCore w (w.setClient c g) := ⟨.setClient w c g h, rfl, fun _ => rfl⟩

theorem addLog (w : World) (e : LogEv) : SameCore w (w.addLog e) :=
  ⟨⟨rfl, rfl, fun _ => rfl, fun _ => rfl⟩, rfl, fun _ => rfl⟩

theorem setWord (w : World) (v : Nat) (word : Word) : SameCore w (w.setWord v word) := by
  cases word with
  | lastTriggerId c f => exact setClient w c (fun cl => { cl with lastTriggerId := _ }) (fun _ => rfl)
  | lastTrackedId c f => exact setClient w c (fun cl => { cl with lastTrackedId := _ }) (fun _ => rfl)
  | user a => exact ⟨⟨rfl, rfl, fun _ => rfl, fun _ => rfl⟩, rfl, fun _ => rfl⟩

theorem gpuStep (w : World) (s : Stream) : SameCore w (w.gpuStep s) := by
  unfold World.gpuStep
  split
  · exact refl w
  · rename_i op rest hq
    split
    · have hs : SameCore w (w.shift s) := ⟨⟨rfl, rfl, fun _ => rfl, fun _ => rfl⟩, rfl, fun _ => rfl⟩
      refine (hs.trans ?_).trans (addLog _ _)
      cases op with
      | write word v => exact setWord _ v word
      | _ => exact refl _
    · exact refl w

theorem arm (w : World) (c : Nat) (f : Flow) (p : Ptr) : SameCore w (w.arm c f p) := by
  refine (setReq w p _ ?_ ?_).trans (setClient _ c _ ?_) <;> (intro _; rfl)

theorem fillWait (w : World) (c : Nat) (f : Flow) (p : Ptr) : SameCore w (w.fillWait c f p) := by
  have h : SameCore w (w.setReq p fun r => { r with gdsWaitInfo := some ⟨w.fills, c, f, r.id⟩ }) := by
    refine setReq w p _ ?_ ?_ <;> (intro _; rfl)
  exact h.trans ⟨⟨rfl, rfl, fun _ => rfl, fun _ => rfl⟩, rfl, fun _ => rfl⟩

end SameCore

/-! ## Processing a completion -/

section Complete
variable {w : World} {c : Nat} {f : Flow} {k : Nat} {wr : Wr}

/-- What the completion loop does to a request that is pending. -/
theorem World.complete_mem (hp : (w.mem wr.wrId).status.isPending) (q : Ptr) :
    (w.complete cfg c f k wr).mem q =
      if q = wr.wrId then { w.mem q with status := .complete, sgv := none } else w.mem q := by
  have hpr : ∀ v : World, v.mem = w.mem → (v.progressRequest wr.wrId).mem q =
      if q = wr.wrId then { w.mem q with status := .complete, sgv := none } else w.mem q := by
    intro v hv
    unfold World.progressRequest
    rw [hv]
    cases hs : (w.mem wr.wrId).status with
    | pendingNowait | pending =>
      simp only [World.setReq_mem, hv]
      split
      · rename_i hq; rw [hq]
      · rfl
    | _ => rw [hs] at hp; exact hp.elim
  unfold World.complete
  dsimp only
  rw [World.addLog_mem]
  refine hpr _ ?_
  unfold World.setDone
  rw [World.setClient_mem]
  split <;> rfl

theorem World.complete_cq (d : Nat) (g : Flow) : (w.complete cfg c f k wr).cq d g =
    if d = c ∧ g = f then (w.cq c f).eraseIdx k else w.cq d g := by
  have hpr : ∀ v : World, (v.progressRequest wr.wrId).cq = v.cq := by
    intro v
    unfold World.progressRequest
    split <;> rfl
  have hd : (w.dequeue c f k).cq d g = if d = c ∧ g = f then (w.cq c f).eraseIdx k else w.cq d g := by
    unfold World.dequeue
    by_cases hdc : d = c
    · subst hdc
      by_cases hgf : g = f
      · subst hgf; simp
      · simp [hgf]
    · simp [hdc]
  unfold World.complete
  dsimp only
  rw [World.addLog_cq, hpr, ← hd]
  unfold World.setDone
  rw [World.setClient_cq]
  split <;> rfl

/-- Of the clients it changes `last_done_id` and, for a triggered request,
`last_tracked_id`. -/
theorem World.complete_clients (d : Nat) : (w.complete cfg c f k wr).clients d =
    if d = c then { w.clients c with
      lastDoneId := (w.mem wr.wrId).id
      lastTrackedId := if cfg.useEventSync && (w.mem wr.wrId).trigger then
        Function.update (w.clients c).lastTrackedId f (w.mem wr.wrId).id else (w.clients c).lastTrackedId }
    else w.clients d := by
  have hpr : ∀ v : World, (v.progressRequest wr.wrId).clients = v.clients := by
    intro v
    unfold World.progressRequest
    split <;> rfl
  unfold World.complete
  dsimp only
  rw [World.addLog_clients, hpr]
  unfold World.setDone
  rw [World.setClient_clients]
  by_cases hb : (cfg.useEventSync && (w.mem wr.wrId).trigger) = true
  · simp only [hb, if_true, World.setTracked, World.setClient_clients, World.setClient_mem]
    split <;> rfl
  · simp only [hb]
    split <;> rfl

theorem World.complete_rest (w : World) (c : Nat) (f : Flow) (k : Nat) (wr : Wr) :
    (w.complete cfg c f k wr).frontier = w.frontier ∧
    (w.complete cfg c f k wr).mpRequestFreeList = w.mpRequestFreeList ∧
    (w.complete cfg c f k wr).streams = w.streams ∧ (w.complete cfg c f k wr).fills = w.fills ∧
    (w.complete cfg c f k wr).log = w.log ++ [.polled c f wr.wrId (w.mem wr.wrId).id] := by
  have hpr : ∀ v : World, (v.progressRequest wr.wrId).frontier = v.frontier ∧
      (v.progressRequest wr.wrId).mpRequestFreeList = v.mpRequestFreeList ∧
      (v.progressRequest wr.wrId).streams = v.streams ∧ (v.progressRequest wr.wrId).fills = v.fills ∧
      (v.progressRequest wr.wrId).log = v.log := by
    intro v
    unfold World.progressRequest
    split <;> exact ⟨rfl, rfl, rfl, rfl, rfl⟩
  unfold World.complete
  dsimp only
  split
  · obtain ⟨h1, h2, h3, h4, h5⟩ := hpr (((w.dequeue c f k).setTracked c f wr.wrId).setDone c wr.wrId)
    exact ⟨h1, h2, h3, h4, by rw [World.addLog_log, h5]; rfl⟩
  · obtain ⟨h1, h2, h3, h4, h5⟩ := hpr ((w.dequeue c f k).setDone c wr.wrId)
    exact ⟨h1, h2, h3, h4, by rw [World.addLog_log, h5]; rfl⟩

end Complete

variable {cfg}

section Steps
variable {w w' : World} {cur cur' : Option Cur} {fl : List Ptr} {pl : Nat → List Ptr}

theorem World.At.unique {p : Ptr} {c c' : Nat} {f f' : Flow} (h : w.At cfg p c f) (h' : w.At cfg p c' f') :
    c = c' ∧ f = f' :=
  ⟨Option.some.inj (h.1.symm.trans h'.1), h.2.2.symm.trans h'.2.2⟩

namespace Core

/-! ## Steps that change no list -/

/-- What a step that changes statuses and completion queues has to keep. -/
theorem restatus (h : Core cfg ⟨w, cur⟩ fl pl) (hs : SameLists w w')
    (hfree : ∀ p, (w.mem p).owner = none → (w'.mem p).status = .undef)
    (hposted : ∀ c, ∀ p ∈ pl c, (w'.mem p).status = .prepared)
    (hcq : ∀ c f, ∀ wr ∈ w'.cq c f, (w.mem wr.wrId).owner ≠ none ∧ w.At cfg wr.wrId c f ∧
      (w.mem wr.wrId).id = wr.op ∧ (w'.mem wr.wrId).status.isPending)
    (hnodup : ∀ c f, ((w'.cq c f).map Wr.wrId).Nodup)
    (hcur : ∀ k, cur' = some k → cur = some k ∧ (w'.mem k.ptr).status = k.st ∧
      ∀ c f, ∀ wr ∈ w'.cq c f, wr.wrId ≠ k.ptr)
    (hprep : ∀ p, (w.mem p).status = .prepared → w.Idle pl p → (w'.mem p).status = .prepared ∧
      ∀ c f, ∀ wr ∈ w'.cq c f, wr.wrId ≠ p)
    (hwr : ∀ p st, cur = some ⟨p, st, false⟩ → cur' = some ⟨p, st, false⟩) :
    Core cfg ⟨w', cur'⟩ fl pl where
  free := by simpa only [FreeList, hs.next, hs.free] using h.free
  free_nodup := h.free_nodup
  free_lt := by simpa only [hs.frontier] using h.free_lt
  owner := by simpa only [hs.owner, hs.frontier] using h.owner
  free_status := by simpa only [hs.owner] using hfree
  posted := by simpa only [hs.next, hs.prev, hs.posted, hs.lastPosted] using h.posted
  posted_rx := by simpa only [hs.posted] using h.posted_rx
  posted_sorted := by simpa only [hs.id] using h.posted_sorted
  posted_mem := by
    intro c p hp
    obtain ⟨h1, h2, -, h3, h4⟩ := h.posted_mem c p hp
    rw [hs.owner, hs.at_iff, hs.flags, hs.id, hs.trigger]
    exact ⟨h1, h2, hposted c p hp, h3, h4⟩
  cq_mem := by
    intro c f wr hm
    rw [hs.owner, hs.at_iff, hs.id]
    exact hcq c f wr hm
  cq_nodup := hnodup
  cur_ok := by
    intro k hk
    obtain ⟨hk', hst, hidle⟩ := hcur k hk
    obtain ⟨h1, -, h3, h4⟩ := h.cur_ok k hk'
    simp only [World.Idle, hs.owner, hs.at_iff, hs.id, hs.trigger, hs.next, hs.prev]
    exact ⟨h1, hst, ⟨hidle, h3.2⟩, h4⟩
  prepared_ok := by
    intro p c ho hat hlt
    simp only [World.Idle, hs.owner, hs.at_iff, hs.id, hs.trigger, hs.next, hs.prev] at ho hat hlt ⊢
    obtain ⟨h1, h2⟩ := h.prepared_ok p c ho hat hlt
    obtain ⟨h3, h4⟩ := hprep p h1 h2
    exact ⟨h3, h4, h2.2⟩
  id_le := by simpa only [hs.owner, hs.peer, hs.id, hs.reqId] using h.id_le
  posted_le := by simpa only [hs.trigger, hs.reqId] using h.posted_le
  wr_ok := by
    intro p ho
    rw [hs.owner] at ho
    rcases h.wr_ok p ho with ⟨st, hc⟩ | hok
    · exact .inl ⟨st, hwr p st hc⟩
    · right
      simpa only [Request.WrOk, hs.inWr, hs.flags] using hok
  flags_ok := by simpa only [hs.owner, hs.flags] using h.flags_ok
  type_ok := by simpa only [hs.owner, hs.type] using h.type_ok

theorem congr (h : Core cfg ⟨w, cur⟩ fl pl) (hw : SameCore w w') : Core cfg ⟨w', cur⟩ fl pl := by
  refine h.restatus hw.toSameLists ?_ ?_ ?_ ?_ ?_ ?_ (fun _ _ hc => hc)
  · simpa only [hw.status] using h.free_status
  · simpa only [hw.status] using fun c p hp => (h.posted_mem c p hp).2.2.1
  · simpa only [hw.status, hw.cq] using h.cq_mem
  · simpa only [hw.cq] using h.cq_nodup
  · intro k hk
    obtain ⟨-, h2, h3, -⟩ := h.cur_ok k hk
    rw [hw.status, hw.cq]
    exact ⟨hk, h2, h3.1⟩
  · intro p hp hi
    rw [hw.status, hw.cq]
    exact ⟨hp, hi.1⟩

theorem leave {p : Ptr} {st : State} (h : Core cfg ⟨w, some ⟨p, st, true⟩⟩ fl pl) :
    Core cfg ⟨w, none⟩ fl pl :=
  h.restatus (.refl w) h.free_status (fun c q hq => (h.posted_mem c q hq).2.2.1) h.cq_mem h.cq_nodup
    (by intro k hk; cases hk) (fun q hq hi => ⟨hq, hi.1⟩) (by intro q st' hc; cases hc)

theorem owner_of_status (h : Core cfg ⟨w, cur⟩ fl pl) {p : Ptr} (hp : (w.mem p).status ≠ .undef) :
    (w.mem p).owner ≠ none := fun ho => hp (h.free_status p ho)

/-- A request that was not prepared becomes pending. -/
theorem restart (h : Core cfg ⟨w, none⟩ fl pl) {p : Ptr}
    (hp : (w.mem p).status = .pendingNowait ∨ (w.mem p).status = .complete) (hs : SameLists w w')
    (hq : w'.cq = w.cq) (hst : ∀ q, (w'.mem q).status = if q = p then .pending else (w.mem q).status) :
    Core cfg ⟨w', none⟩ fl pl := by
  have hne : ∀ q, (w.mem q).status = .prepared → q ≠ p := by
    rintro q hq rfl
    rcases hp with hp | hp <;> rw [hq] at hp <;> cases hp
  have ho : (w.mem p).owner ≠ none := h.owner_of_status (by rcases hp with hp | hp <;> simp [hp])
  refine h.restatus hs ?_ ?_ ?_ ?_ (by intro k hk; cases hk) ?_ (by intro q st hc; cases hc)
  · intro q hq
    rw [hst, if_neg (by rintro rfl; exact ho hq)]
    exact h.free_status q hq
  · intro c q hm
    have hpr := (h.posted_mem c q hm).2.2.1
    rw [hst, if_neg (hne q hpr)]
    exact hpr
  · intro c f wr hm
    rw [hq] at hm
    obtain ⟨h1, h2, h3, h4⟩ := h.cq_mem c f wr hm
    refine ⟨h1, h2, h3, ?_⟩
    rw [hst]
    split
    · trivial
    · exact h4
  · rw [hq]; exact h.cq_nodup
  · intro q hpr hi
    rw [hst, if_neg (hne q hpr), hq]
    exact ⟨hpr, hi.1⟩

/-- A pending request that is in no list enters the completion queue of its
client and flow. -/
theorem launch (h : Core cfg ⟨w, cur⟩ fl pl) {p : Ptr} {c : Nat} {f : Flow} (ho : (w.mem p).owner ≠ none)
    (hat : w.At cfg p c f) (hp : (w.mem p).status.isPending) (hidle : ∀ c f, ∀ wr ∈ w.cq c f, wr.wrId ≠ p)
    (hcur : ∀ k, cur = some k → k.ptr ≠ p) (hs : SameLists w w')
    (hst : ∀ q, (w'.mem q).status = (w.mem q).status)
    (hq : ∀ c' f', w'.cq c' f' = if c' = c ∧ f' = f then w.cq c f ++ [⟨p, (w.mem p).id⟩] else w.cq c' f') :
    Core cfg ⟨w', cur⟩ fl pl := by
  have hmem : ∀ c' f', ∀ wr ∈ w'.cq c' f', wr ∈ w.cq c' f' ∨ c' = c ∧ f' = f ∧ wr = ⟨p, (w.mem p).id⟩ := by
    intro c' f' wr hm
    rw [hq] at hm
    split at hm
    · rename_i hcf
      obtain ⟨rfl, rfl⟩ := hcf
      rcases List.mem_append.mp hm with hm | hm
      · exact .inl hm
      · exact .inr ⟨rfl, rfl, List.mem_singleton.mp hm⟩
    · exact .inl hm
  refine h.restatus hs ?_ ?_ ?_ ?_ ?_ ?_ (fun _ _ hc => hc)
  · simpa only [hst] using h.free_status
  · simpa only [hst] using fun c p hp => (h.posted_mem c p hp).2.2.1
  · intro c' f' wr hm
    rw [hst]
    rcases hmem c' f' wr hm with hm | ⟨rfl, rfl, rfl⟩
    · exact h.cq_mem c' f' wr hm
    · exact ⟨ho, hat, rfl, hp⟩
  · intro c' f'
    rw [hq]
    split
    · rw [List.map_append]
      refine List.Nodup.append (h.cq_nodup c f) (List.nodup_singleton _) ?_
      intro q hm hq'
      obtain ⟨wr, hwr, rfl⟩ := List.mem_map.mp hm
      exact hidle c f wr hwr (List.mem_singleton.mp hq')
    · exact h.cq_nodup c' f'
  · intro k hk
    obtain ⟨-, h2, h3, -⟩ := h.cur_ok k hk
    rw [hst]
    refine ⟨hk, h2, ?_⟩
    intro c' f' wr hm
    rcases hmem c' f' wr hm with hm | ⟨rfl, rfl, rfl⟩
    · exact h3.1 c' f' wr hm
    · exact (hcur k hk).symm
  · intro q hpr hi
    rw [hst]
    refine ⟨hpr, ?_⟩
    intro c' f' wr hm
    rcases hmem c' f' wr hm with hm | ⟨rfl, rfl, rfl⟩
    · exact hi.1 c' f' wr hm
    · rintro rfl
      rw [hpr] at hp
      exact hp

/-- A completion is taken from its queue and its request becomes complete. -/
theorem reap (h : Core cfg ⟨w, cur⟩ fl pl) {c : Nat} {f : Flow} {k : Nat} {wr : Wr}
    (hk : (w.cq c f)[k]? = some wr) (hs : SameLists w w')
    (hst : ∀ q, (w'.mem q).status = if q = wr.wrId then .complete else (w.mem q).status)
    (hq : ∀ c' f', w'.cq c' f' = if c' = c ∧ f' = f then (w.cq c f).eraseIdx k else w.cq c' f') :
    Core cfg ⟨w', cur⟩ fl pl := by
  have hwr : wr ∈ w.cq c f := List.mem_of_getElem? hk
  obtain ⟨ho, hat, -, hpend⟩ := h.cq_mem c f wr hwr
  have hsub : ∀ c' f', (w'.cq c' f').Sublist (w.cq c' f') := by
    intro c' f'
    rw [hq]
    split
    · rename_i hcf
      rw [hcf.1, hcf.2]
      exact List.eraseIdx_sublist _ _
    · exact List.Sublist.refl _
  -- the queue holds the request once, and the other queues belong to other clients or flows
  have hne : ∀ c' f', ∀ wr' ∈ w'.cq c' f', wr'.wrId ≠ wr.wrId := by
    intro c' f' wr' hm heq
    obtain ⟨-, hat', -⟩ := h.cq_mem c' f' wr' ((hsub c' f').subset hm)
    rw [heq] at hat'
    obtain ⟨rfl, rfl⟩ := World.At.unique hat hat'
    rw [hq, if_pos ⟨rfl, rfl⟩] at hm
    obtain ⟨hlt, hget⟩ := List.getElem?_eq_some_iff.mp hk
    obtain ⟨i, hi, hik, hwr'⟩ := List.mem_eraseIdx_iff_getElem.mp hm
    rw [← hwr', ← hget] at heq
    have hinj := List.nodup_iff_injective_get.mp (h.cq_nodup c f)
    have hik' := @hinj ⟨i, by simpa using hi⟩ ⟨k, by simpa using hlt⟩ (by simpa using heq)
    exact hik (Fin.mk.inj hik')
  have hprep : ∀ q, (w.mem q).status = .prepared → q ≠ wr.wrId := by
    rintro q hq rfl
    rw [hq] at hpend
    exact hpend
  refine h.restatus hs ?_ ?_ ?_ ?_ ?_ ?_ (fun _ _ hc => hc)
  · intro q hq'
    rw [hst, if_neg (by rintro rfl; exact ho hq')]
    exact h.free_status q hq'
  · intro c' q hm
    have hpr := (h.posted_mem c' q hm).2.2.1
    rw [hst, if_neg (hprep q hpr)]
    exact hpr
  · intro c' f' wr' hm
    rw [hst, if_neg (hne c' f' wr' hm)]
    exact h.cq_mem c' f' wr' ((hsub c' f').subset hm)
  · intro c' f'
    exact (h.cq_nodup c' f').sublist ((hsub c' f').map Wr.wrId)
  · intro k' hk'
    obtain ⟨-, h2, h3, -⟩ := h.cur_ok k' hk'
    rw [hst, if_neg (h3.1 c f wr hwr).symm]
    exact ⟨hk', h2, fun c' f' wr' hm => h3.1 c' f' wr' ((hsub c' f').subset hm)⟩
  · intro q hpr hi
    rw [hst, if_neg (hprep q hpr)]
    exact ⟨hpr, fun c' f' wr' hm => hi.1 c' f' wr' ((hsub c' f').subset hm)⟩

theorem stamp {c : Nat} {p : Ptr} (h : Core cfg ⟨w, cur⟩ fl pl) (hat : w.At cfg p c .tx)
    (hp : cur = some ⟨p, .prepared, true⟩ ∨ ((w.mem p).owner = some .mpSendPrepare ∧ cur = none ∧
      (w.clients c).lastPostedTriggerId .tx < (w.mem p).id)) :
    Core cfg ⟨w.stamp c .tx p, some ⟨p, .prepared, true⟩⟩ fl pl := by
  -- in both cases `p` is a prepared request in no list, with an id that is not below the last stamp
  have hk : (w.mem p).owner ≠ none ∧ (w.mem p).status = .prepared ∧ w.Idle pl p ∧
      (w.clients c).lastPostedTriggerId .tx ≤ (w.mem p).id ∧ ∀ q ∈ pl c, (w.mem q).id < (w.mem p).id := by
    rcases hp with rfl | ⟨ho, -, hlt⟩
    · obtain ⟨h1, h2, h3, h4⟩ := h.cur_ok _ rfl
      exact ⟨h1, h2, h3, h4 c .tx hat⟩
    · obtain ⟨h1, h2⟩ := h.prepared_ok p c ho hat hlt
      exact ⟨by rw [ho]; simp, h1, h2, Nat.le_of_lt hlt, fun q hq => lt_of_le_of_lt (h.posted_mem c q hq).2.2.2.2 hlt⟩
  obtain ⟨ho, hst, hidle, hle, hlast⟩ := hk
  have htrig : ∀ d, ((w.stamp c .tx p).clients d).lastPostedTriggerId .tx =
      if d = c then (w.mem p).id else (w.clients d).lastPostedTriggerId .tx := by
    intro d
    simp only [World.stamp, World.setClient_clients]
    split <;> simp
  have hmono : ∀ d, (w.clients d).lastPostedTriggerId .tx ≤
      ((w.stamp c .tx p).clients d).lastPostedTriggerId .tx := by
    intro d
    rw [htrig]
    split
    · rename_i hd; rw [hd]; exact hle
    · exact le_rfl
  have hreq : ∀ d, ((w.stamp c .tx p).clients d).lastReqId = (w.clients d).lastReqId := by
    intro d
    simp only [World.stamp, World.setClient_clients]
    split
    · rename_i hd; rw [hd]
    · rfl
  have hposted : ∀ d, ((w.stamp c .tx p).clients d).postedStreamReq = (w.clients d).postedStreamReq ∧
      ((w.stamp c .tx p).clients d).lastPostedStreamReq = (w.clients d).lastPostedStreamReq := by
    intro d
    simp only [World.stamp, World.setClient_clients]
    split
    · rename_i hd; rw [hd]; exact ⟨rfl, rfl⟩
    · exact ⟨rfl, rfl⟩
  refine { h with posted := ?_, posted_rx := ?_, posted_mem := ?_, cur_ok := ?_, prepared_ok := ?_,
                  id_le := ?_, posted_le := ?_, wr_ok := ?_ }
  · intro d; rw [(hposted d).1, (hposted d).2]; exact h.posted d
  · intro d; rw [(hposted d).1]; exact h.posted_rx d
  · intro d q hq
    obtain ⟨h1, h2, h3, h4, h5⟩ := h.posted_mem d q hq
    exact ⟨h1, h2, h3, h4, le_trans h5 (hmono d)⟩
  · intro k hk
    cases hk
    refine ⟨ho, hst, hidle, ?_⟩
    intro c' f' hat'
    obtain ⟨rfl, -⟩ := World.At.unique hat hat'
    rw [htrig, if_pos rfl]
    exact ⟨le_rfl, hlast⟩
  · intro q d hq hatq hlt
    exact h.prepared_ok q d hq hatq (lt_of_le_of_lt (hmono d) hlt)
  · intro q d hq hd
    rw [hreq]
    exact h.id_le q d hq hd
  · intro d
    rw [htrig, hreq]
    split
    · rename_i hd; rw [hd]; exact h.id_le p c ho hat.1
    · exact h.posted_le d
  · intro q hq
    rcases h.wr_ok q hq with ⟨st', hc⟩ | hw
    · rcases hp with rfl | ⟨-, rfl, -⟩ <;> cases hc
    · exact .inr hw

/-! ## Steps on the lists -/

/-- The call fills in the work request of the request it holds. -/
theorem build (h : Core cfg ⟨w, cur⟩ fl pl) {p : Ptr} {st : State} {b : Bool} (hc : cur = some ⟨p, st, b⟩)
    {g : Request → Request} (hg : (w.mem p).SameLife (g (w.mem p))) (hok : (g (w.mem p)).WrOk p) :
    Core cfg ⟨w.setReq p g, some ⟨p, st, true⟩⟩ fl pl := by
  obtain ⟨htype, hpeer, hstatus, -, hid, hnext, hprev, howner, -, hflags⟩ := hg
  have heq : ∀ q, ((w.setReq p g).mem q).type = (w.mem q).type ∧ ((w.setReq p g).mem q).peer = (w.mem q).peer ∧
      ((w.setReq p g).mem q).status = (w.mem q).status ∧ ((w.setReq p g).mem q).id = (w.mem q).id ∧
      ((w.setReq p g).mem q).next = (w.mem q).next ∧ ((w.setReq p g).mem q).prev = (w.mem q).prev ∧
      ((w.setReq p g).mem q).owner = (w.mem q).owner := by
    intro q
    exact w.setReq_rel (R := fun r r' => r'.type = r.type ∧ r'.peer = r.peer ∧ r'.status = r.status ∧ r'.id = r.id ∧
      r'.next = r.next ∧ r'.prev = r.prev ∧ r'.owner = r.owner) (fun _ => ⟨rfl, rfl, rfl, rfl, rfl, rfl, rfl⟩)
      ⟨htype, hpeer, hstatus, hid, hnext, hprev, howner⟩ q
  have hat : ∀ q c f, (w.setReq p g).At cfg q c f ↔ w.At cfg q c f := by
    intro q c f
    simp only [World.At, heq]
  obtain ⟨ho, hst, hidle, hids⟩ := h.cur_ok _ hc
  constructor
  case free => simpa only [FreeList, heq, World.setReq_free] using h.free
  case free_nodup => exact h.free_nodup
  case free_lt => exact h.free_lt
  case owner => simpa only [heq, World.setReq_frontier] using h.owner
  case free_status => simpa only [heq] using h.free_status
  case posted => simpa only [heq, World.setReq_clients] using h.posted
  case posted_rx => exact h.posted_rx
  case posted_sorted => simpa only [heq] using h.posted_sorted
  case posted_mem =>
    intro c q hq
    have hne : q ≠ p := by rintro rfl; exact hidle.2.1 c hq
    have := h.posted_mem c q hq
    simp only [heq, hat]
    rwa [World.setReq_mem, if_neg hne]
  case cq_mem => simpa only [heq, hat, World.setReq_cq] using h.cq_mem
  case cq_nodup => exact h.cq_nodup
  case cur_ok =>
    intro k hk
    cases hk
    simp only [World.Idle, heq, hat]
    exact ⟨ho, hst, hidle, hids⟩
  case prepared_ok =>
    simpa only [World.Idle, heq, hat, World.setReq_cq, World.setReq_clients] using h.prepared_ok
  case id_le => simpa only [heq, World.setReq_clients] using h.id_le
  case posted_le => exact h.posted_le
  case wr_ok =>
    intro q hq
    right
    rw [World.setReq_mem]
    split
    · rename_i hqp; rw [hqp]; exact hok
    · rename_i hqp
      rw [(heq q).2.2.2.2.2.2] at hq
      rcases h.wr_ok q hq with ⟨st', hc'⟩ | hw
      · rw [hc] at hc'
        cases hc'
        exact absurd rfl hqp
      · exact hw
  case flags_ok =>
    intro q fn hq hfn
    rw [(heq q).2.2.2.2.2.2] at hq
    rw [World.setReq_mem]
    split
    · rename_i hqp
      subst hqp
      rw [hflags fn hq hfn]
      exact h.flags_ok q fn hq hfn
    · exact h.flags_ok q fn hq hfn
  case type_ok => simpa only [heq] using h.type_ok

/-! ## Steps on the pool -/

/-- The free list is `fl`, and the other requests of the regions are in use. -/
structure Pooled (w : World) (fl : List Ptr) : Prop where
  free : FreeList w fl
  nodup : fl.Nodup
  lt : ∀ p ∈ fl, p < w.frontier
  status : ∀ p, (w.mem p).owner = none → (w.mem p).status = .undef
  owner : ∀ p, (w.mem p).owner ≠ none ↔ p < w.frontier ∧ p ∉ fl

/-- The call holds a request that was free in `w`, with an id its client had not
given out there. -/
structure JustTaken (cfg : Config) (w w' : World) (k : Cur) : Prop where
  free : (w.mem k.ptr).owner = none
  owner : ∃ fn, (w'.mem k.ptr).owner = some fn ∧
    ((w'.mem k.ptr).type ≠ .null ∧ (w'.mem k.ptr).type.flow = fn.flow) ∧ (fn = .mpSendPrepare → k.st = .prepared)
  status : (w'.mem k.ptr).status = k.st
  links : (w'.mem k.ptr).next = none ∧ (w'.mem k.ptr).prev = none
  flags : (w'.mem k.ptr).flags = 0
  id : ∀ c, cfg.clientIndex (w'.mem k.ptr).peer = some c →
    (w.clients c).lastReqId < (w'.mem k.ptr).id ∧ (w'.mem k.ptr).id ≤ (w'.clients c).lastReqId
  built : k.built = false

theorem pooled (h : Core cfg ⟨w, cur⟩ fl pl) : Pooled w fl :=
  ⟨h.free, h.free_nodup, h.free_lt, h.free_status, h.owner⟩

/-- The pool changes: what has to be kept of the requests that are in use. Those
in the lists and in the queues stay as they are, and no request comes into use
but the one the call takes. -/
theorem repool (h : Core cfg ⟨w, none⟩ fl pl) {fl' : List Ptr} (hpool : Pooled w' fl') (hcq : w'.cq = w.cq)
    (hclient : ∀ c, (w'.clients c).postedStreamReq = (w.clients c).postedStreamReq ∧
      (w'.clients c).lastPostedStreamReq = (w.clients c).lastPostedStreamReq ∧
      (w'.clients c).lastPostedTriggerId = (w.clients c).lastPostedTriggerId ∧
      (w.clients c).lastReqId ≤ (w'.clients c).lastReqId)
    (hkept : ∀ q, (w.mem q).owner ≠ none → (w.mem q).status ≠ .complete → w'.mem q = w.mem q)
    (hlive : ∀ q, (w'.mem q).owner ≠ none → w'.mem q = w.mem q ∨ ∃ k, cur' = some k ∧ k.ptr = q)
    (hnew : ∀ k, cur' = some k → JustTaken cfg w w' k) : Core cfg ⟨w', cur'⟩ fl' pl := by
  have hposted : ∀ c, ∀ q ∈ pl c, w'.mem q = w.mem q := by
    intro c q hq
    obtain ⟨ho, -, hst, -⟩ := h.posted_mem c q hq
    refine hkept q ho ?_
    intro hc
    rw [hst] at hc
    cases hc
  have hqueued : ∀ c f, ∀ wr ∈ w.cq c f, w'.mem wr.wrId = w.mem wr.wrId := by
    intro c f wr hm
    obtain ⟨ho, -, -, hp⟩ := h.cq_mem c f wr hm
    refine hkept _ ho ?_
    intro hst
    rw [hst] at hp
    exact hp
  have huse : ∀ q fn, (w'.mem q).owner = some fn → w'.mem q = w.mem q ∨ ∃ k, cur' = some k ∧ k.ptr = q := by
    intro q fn hq
    exact hlive q (by simp [hq])
  -- what is in a list or in a queue was in use before
  have hidle : ∀ k, cur' = some k → w'.Idle pl k.ptr := by
    intro k hk
    have ho := (hnew k hk).free
    refine ⟨?_, fun c hq => (h.posted_mem c _ hq).1 ho, (hnew k hk).links⟩
    rw [hcq]
    intro c f wr hm heq
    apply (h.cq_mem c f wr hm).1
    rw [heq]
    exact ho
  constructor
  case free => exact hpool.free
  case free_nodup => exact hpool.nodup
  case free_lt => exact hpool.lt
  case owner => exact hpool.owner
  case free_status => exact hpool.status
  case posted =>
    intro c
    rw [(hclient c).1, (hclient c).2.1]
    exact (h.posted c).frame (fun q hq => by rw [hposted c q hq]) (fun q hq => by rw [hposted c q hq])
  case posted_rx =>
    intro c
    rw [(hclient c).1]
    exact h.posted_rx c
  case posted_sorted =>
    intro c
    refine (h.posted_sorted c).imp_of_mem ?_
    intro a b ha hb hab
    rwa [hposted c a ha, hposted c b hb]
  case posted_mem =>
    intro c q hq
    simp only [World.At, hposted c q hq, (hclient c).2.2.1]
    exact h.posted_mem c q hq
  case cq_mem =>
    intro c f wr hm
    rw [hcq] at hm
    simp only [World.At, hqueued c f wr hm]
    exact h.cq_mem c f wr hm
  case cq_nodup => simpa only [hcq] using h.cq_nodup
  case cur_ok =>
    intro k hk
    have hn := hnew k hk
    obtain ⟨fn, ho, -⟩ := hn.owner
    refine ⟨by simp [ho], hn.status, hidle k hk, ?_⟩
    -- the new id is above every id of its client
    intro c f hat
    have hlt := (hn.id c hat.1).1
    have hle := h.posted_le c
    rw [(hclient c).2.2.1]
    refine ⟨Nat.le_trans hle (Nat.le_of_lt hlt), ?_⟩
    intro q hq
    have hqle := (h.posted_mem c q hq).2.2.2.2
    rw [hposted c q hq]
    calc (w.mem q).id ≤ (w.clients c).lastPostedTriggerId .tx := hqle
      _ ≤ (w.clients c).lastReqId := hle
      _ < (w'.mem k.ptr).id := hlt
  case prepared_ok =>
    intro q c hq hat hlt
    rcases huse q _ hq with heq | ⟨k, hk, rfl⟩
    · simp only [World.At, World.Idle, heq, hcq, (hclient c).2.2.1] at hq hat hlt ⊢
      exact h.prepared_ok q c hq hat hlt
    · obtain ⟨fn, ho, -, hprep⟩ := (hnew k hk).owner
      have hfn : fn = .mpSendPrepare := Option.some.inj (ho.symm.trans hq)
      exact ⟨(hnew k hk).status.trans (hprep hfn), hidle k hk⟩
  case id_le =>
    intro q c hq hc
    rcases hlive q hq with heq | ⟨k, hk, rfl⟩
    · rw [heq] at hq hc ⊢
      exact Nat.le_trans (h.id_le q c hq hc) (hclient c).2.2.2
    · exact ((hnew k hk).id c hc).2
  case posted_le =>
    intro c
    rw [(hclient c).2.2.1]
    exact Nat.le_trans (h.posted_le c) (hclient c).2.2.2
  case wr_ok =>
    intro q hq
    rcases hlive q hq with heq | ⟨k, hk, rfl⟩
    · rw [heq] at hq ⊢
      rcases h.wr_ok q hq with ⟨st, hc⟩ | hw
      · cases hc
      · exact .inr hw
    · obtain ⟨p, st, b⟩ := k
      have hb : b = false := (hnew _ hk).built
      exact .inl ⟨st, by rw [← hb]; exact hk⟩
  case flags_ok =>
    intro q fn hq hput
    rcases huse q _ hq with heq | ⟨k, hk, rfl⟩
    · rw [heq] at hq ⊢
      exact h.flags_ok q fn hq hput
    · exact (hnew k hk).flags
  case type_ok =>
    intro q fn hq
    rcases huse q _ hq with heq | ⟨k, hk, rfl⟩
    · rw [heq] at hq ⊢
      exact h.type_ok q fn hq
    · obtain ⟨fn', ho, hty, -⟩ := (hnew k hk).owner
      have hfn : fn' = fn := Option.some.inj (ho.symm.trans hq)
      rw [← hfn]
      exact hty

/-- A complete request goes back to the free list. -/
theorem release (h : Core cfg ⟨w, none⟩ fl pl) {p : Ptr} (hp : (w.mem p).status = .complete) :
    Core cfg ⟨w.release p, none⟩ (p :: fl) pl := by
  have ho : (w.mem p).owner ≠ none := h.owner_of_status (by simp [hp])
  have hfl : p ∉ fl := ((h.owner p).mp ho).2
  have hne : ∀ q, q ≠ p → (w.release p).mem q = w.mem q := by
    intro q hq
    simp [World.release, hq]
  have hself : ((w.release p).mem p).owner = none ∧ ((w.release p).mem p).status = .undef := by
    simp [World.release]
  refine h.repool ?_ rfl (fun _ => ⟨rfl, rfl, rfl, le_rfl⟩) ?_ ?_ (by intro k hk; cases hk)
  · constructor
    case free => exact FreeList.release h.free hfl
    case nodup => exact List.nodup_cons.mpr ⟨hfl, h.free_nodup⟩
    case lt =>
      intro q hq
      rcases List.mem_cons.mp hq with rfl | hq
      · exact ((h.owner q).mp ho).1
      · exact h.free_lt q hq
    case owner =>
      intro q
      by_cases hq : q = p
      · subst hq
        simp [hself.1]
      · simp only [hne q hq, List.mem_cons, hq, false_or]
        exact h.owner q
    case status =>
      intro q hq
      by_cases hqp : q = p
      · rw [hqp]; exact hself.2
      · simp only [hne q hqp] at hq ⊢
        exact h.free_status q hq
  · -- what is not complete is not `p`
    intro q _ hst
    exact hne q (by rintro rfl; exact hst hp)
  · intro q hq
    exact .inl (hne q (by rintro rfl; exact hq hself.1))

/-- The posted list of client `c` becomes `l'`: what has to be kept when a
request `p` of the client enters the list or leaves it. -/
theorem relink (h : Core cfg ⟨w, cur⟩ fl pl) {c : Nat} {p : Ptr} {l' : List Ptr} (hat : w.At cfg p c .tx)
    (ho : (w.mem p).owner ≠ none) (hnow : nowait (w.mem p).flags = false)
    (hid : (w.mem p).id ≤ (w.clients c).lastPostedTriggerId .tx)
    (hidle : ∀ c f, ∀ wr ∈ w.cq c f, wr.wrId ≠ p) (hfr : w'.frontier = w.frontier)
    (hfree : w'.mpRequestFreeList = w.mpRequestFreeList) (hcq : w'.cq = w.cq)
    (hclient : ∀ d, (w'.clients d).lastReqId = (w.clients d).lastReqId ∧
      (w'.clients d).lastPostedTriggerId = (w.clients d).lastPostedTriggerId)
    (hreq : ∀ q, (w'.mem q).type = (w.mem q).type ∧ (w'.mem q).peer = (w.mem q).peer ∧
      (w'.mem q).id = (w.mem q).id ∧ (w'.mem q).flags = (w.mem q).flags ∧ (w'.mem q).inWr = (w.mem q).inWr ∧
      (w'.mem q).owner = (w.mem q).owner)
    (hst : ∀ q, q ≠ p → (w'.mem q).status = (w.mem q).status)
    (hlinks : ∀ q, q ∉ pl c → q ≠ p → (w'.mem q).next = (w.mem q).next ∧ (w'.mem q).prev = (w.mem q).prev)
    (hheads : ∀ d f, d ≠ c ∨ f = .rx → (w'.clients d).postedStreamReq f = (w.clients d).postedStreamReq f ∧
      (w'.clients d).lastPostedStreamReq f = (w.clients d).lastPostedStreamReq f)
    (hdll : Dll (fun q => (w'.mem q).next) (fun q => (w'.mem q).prev) ((w'.clients c).postedStreamReq .tx)
      ((w'.clients c).lastPostedStreamReq .tx) l')
    (hsorted : l'.Pairwise fun q r => (w.mem q).id < (w.mem r).id)
    (hl' : ∀ q ∈ l', q ∈ pl c ∨ q = p) (hpl : p ∈ l' → (w'.mem p).status = .prepared)
    (hcur : ∀ k, cur' = some k → cur = some k ∧ k.ptr ≠ p ∧ ∀ q ∈ l', q ∈ pl c)
    (hwr : ∀ q st, cur = some ⟨q, st, false⟩ → cur' = some ⟨q, st, false⟩) :
    Core cfg ⟨w', cur'⟩ fl (Function.update pl c l') := by
  have hpl' : ∀ d, Function.update pl c l' d = if d = c then l' else pl d := by
    intro d
    rw [Function.update_apply]
  have hatq : ∀ q d f, w'.At cfg q d f ↔ w.At cfg q d f := by
    intro q d f
    simp only [World.At, hreq]
  have hnot : ∀ q, q ≠ p → (∀ d, q ∉ pl d) → ∀ d, q ∉ Function.update pl c l' d := by
    intro q hqp hq d hm
    rw [hpl'] at hm
    split at hm
    · rcases hl' q hm with hm | hm
      · exact hq c hm
      · exact hqp hm
    · exact hq d hm
  have hmem : ∀ q ∈ l', (w.mem q).owner ≠ none ∧ w.At cfg q c .tx ∧ (w'.mem q).status = .prepared ∧
      nowait (w.mem q).flags = false ∧ (w.mem q).id ≤ (w.clients c).lastPostedTriggerId .tx := by
    intro q hm
    by_cases hqp : q = p
    · rw [hqp] at hm ⊢
      exact ⟨ho, hat, hpl hm, hnow, hid⟩
    · have hq := (hl' q hm).resolve_right hqp
      obtain ⟨h1, h2, h3, h4⟩ := h.posted_mem c q hq
      exact ⟨h1, h2, by rw [hst q hqp]; exact h3, h4⟩
  -- the lists of the other clients hold requests of other clients
  have hother : ∀ d, d ≠ c → ∀ q ∈ pl d, q ∉ pl c ∧ q ≠ p := by
    intro d hd q hm
    have hat' := (h.posted_mem d q hm).2.1
    constructor
    · intro hm'
      exact hd (World.At.unique hat' (h.posted_mem c q hm').2.1).1
    · rintro rfl
      exact hd (World.At.unique hat' hat).1
  have hidle' : ∀ q, q ≠ p → w.Idle pl q → w'.Idle (Function.update pl c l') q := by
    intro q hqp hi
    obtain ⟨hn, hp⟩ := hlinks q (hi.2.1 c) hqp
    rw [World.Idle, hcq, hn, hp]
    exact ⟨hi.1, hnot q hqp hi.2.1, hi.2.2⟩
  constructor
  case free =>
    show Linked (fun q => (w'.mem q).next) w'.mpRequestFreeList fl
    rw [hfree]
    refine h.free.frame ?_
    intro q hq
    have hfree' : (w.mem q).owner = none := by
      by_contra hne
      exact ((h.owner q).mp hne).2 hq
    refine (hlinks q ?_ ?_).1
    · intro hm
      exact (h.posted_mem c q hm).1 hfree'
    · rintro rfl
      exact ho hfree'
  case free_nodup => exact h.free_nodup
  case free_lt => simpa only [hfr] using h.free_lt
  case owner => simpa only [hreq, hfr] using h.owner
  case free_status =>
    intro q hq
    rw [(hreq q).2.2.2.2.2] at hq
    rw [hst q (by rintro rfl; exact ho hq)]
    exact h.free_status q hq
  case posted =>
    intro d
    rw [hpl']
    split
    · rename_i hd; rw [hd]; exact hdll
    · rename_i hd
      rw [(hheads d .tx (.inl hd)).1, (hheads d .tx (.inl hd)).2]
      refine (h.posted d).frame ?_ ?_
      · intro q hm
        exact (hlinks q (hother d hd q hm).1 (hother d hd q hm).2).1
      · intro q hm
        exact (hlinks q (hother d hd q hm).1 (hother d hd q hm).2).2
  case posted_rx =>
    intro d
    rw [(hheads d .rx (.inr rfl)).1]
    exact h.posted_rx d
  case posted_sorted =>
    intro d
    simp only [hreq, hpl']
    split
    · exact hsorted
    · exact h.posted_sorted d
  case posted_mem =>
    intro d q hm
    simp only [hreq, hatq, hclient]
    rw [hpl'] at hm
    split at hm
    · rename_i hd; rw [hd]; exact hmem q hm
    · rename_i hd
      rw [hst q (hother d hd q hm).2]
      exact h.posted_mem d q hm
  case cq_mem =>
    intro d f wr hm
    rw [hcq] at hm
    rw [hatq, hst _ (hidle d f wr hm), (hreq wr.wrId).2.2.1, (hreq wr.wrId).2.2.2.2.2]
    exact h.cq_mem d f wr hm
  case cq_nodup => simpa only [hcq] using h.cq_nodup
  case cur_ok =>
    intro k hk
    obtain ⟨hk, hkp, hsub⟩ := hcur k hk
    obtain ⟨h1, h2, h3, h4⟩ := h.cur_ok k hk
    simp only [hreq, hatq, hclient]
    refine ⟨h1, by rw [hst _ hkp]; exact h2, hidle' _ hkp h3, ?_⟩
    intro d f hd
    refine ⟨(h4 d f hd).1, ?_⟩
    intro q hm
    rw [hpl'] at hm
    split at hm
    · rename_i hdc; subst hdc; exact (h4 d f hd).2 q (hsub q hm)
    · exact (h4 d f hd).2 q hm
  case prepared_ok =>
    intro q d hq ha hlt
    simp only [hreq, hatq, hclient] at hq ha hlt ⊢
    have hqp : q ≠ p := by
      rintro rfl
      obtain ⟨rfl, -⟩ := World.At.unique ha hat
      exact absurd hlt (Nat.not_lt.mpr hid)
    obtain ⟨h1, h2⟩ := h.prepared_ok q d hq ha hlt
    exact ⟨by rw [hst q hqp]; exact h1, hidle' q hqp h2⟩
  case id_le => simpa only [hreq, hclient] using h.id_le
  case posted_le => simpa only [hclient] using h.posted_le
  case wr_ok =>
    intro q hq
    rw [(hreq q).2.2.2.2.2] at hq
    rcases h.wr_ok q hq with ⟨st, hc⟩ | hw
    · exact .inl ⟨st, hwr q st hc⟩
    · right
      simpa only [Request.WrOk, hreq] using hw
  case flags_ok => simpa only [hreq] using h.flags_ok
  case type_ok => simpa only [hreq] using h.type_ok

end Core

end Steps

end LibMp
