import LibMp.Env

/- The request pool (mp.c): regions of `mp_request_limit` requests, the free
   list threaded through their `next` links, and the life of a request from
   `new_stream_request` to `release_mp_request`. -/
namespace LibMp

def mpRequestLimit : Nat := 512
def uintMax : Nat := 2 ^ 32 - 1

namespace World
variable (w : World)

/-- `allocate_requests`: a new region becomes the free list. The region is put
on `mem_region_list` only if that list was empty; otherwise its own `next`
points at the list and the list keeps its head. -/
def allocateRequests : World :=
  { w with
    frontier := w.frontier + mpRequestLimit
    memRegionList := if w.memRegionList = [] then [w.frontier] else w.memRegionList
    mpRequestFreeList := some w.frontier
    mem := fun q =>
      if w.frontier ≤ q ∧ q < w.frontier + mpRequestLimit then
        { w.mem q with next := if q + 1 < w.frontier + mpRequestLimit then some (q + 1) else none }
      else w.mem q }

/-- The first request of the free list leaves it. -/
def popFree (p : Ptr) : World :=
  { w.setReq p fun r => { r with next := none, prev := none } with
    mpRequestFreeList := (w.mem p).next }

/-- `release_mp_request`. -/
def release (p : Ptr) : World :=
  { w.setReq p fun r => { r with
      next := w.mpRequestFreeList, prev := none, type := .null, status := .undef, owner := none } with
    mpRequestFreeList := some p
    log := w.log ++ [.released p (w.mem p).peer (w.mem p).id] }

/-- `++client->last_req_id`. -/
def bumpReqId (c : Nat) : World := w.setClient c fun cl => { cl with lastReqId := cl.lastReqId + 1 }

end World

def allocateRequests : M Unit := do
  let w ← world
  Prog.require (w.mpRequestFreeList = none) .assertLinks
  update World.allocateRequests

def getRequest : M Ptr := do
  let w ← world
  if w.mpRequestFreeList = none then allocateRequests
  -- the new region, or the list that was there
  let w ← world
  match w.mpRequestFreeList with
  | none => Prog.stop .assertLinks
  | some p =>
    update fun w => w.popFree p
    return p

/-- `mp_get_request_id`. -/
def mpGetRequestId (c : Nat) : M Nat := do
  let cl ← client c
  Prog.require (cl.lastReqId < uintMax) .assertReqId
  update fun w => w.bumpReqId c
  return cl.lastReqId + 1

/-- `new_stream_request` by the call `fn`; `rank` is the client's `mpi_rank`.
The `stream` argument of the source is not stored. -/
def newStreamRequest (fn : Fn) (c rank : Nat) (type : ReqType) (state : State) : M Ptr := do
  let p ← getRequest
  let id ← mpGetRequestId c
  update fun w => w.setReq p fun r => { r with
    peer := rank, flags := 0, sgv := none, next := none, prev := none, trigger := false, type := type
    status := state, id := id, owner := some fn }
  return p

def releaseMpRequest (p : Ptr) : M Unit := update fun w => w.release p

/-- `&clients[client_index[peer]]`. -/
def clientOf (cfg : Config) (peer : Nat) : M Nat :=
  match cfg.clientIndex peer with
  | some c => return c
  | none => Prog.stop .badPeer

/-! ## Taking a request, as one update -/

namespace World
variable (w : World)

/-- The world in which the free list is not empty. -/
def refill : World := if w.mpRequestFreeList = none then w.allocateRequests else w

/-- The request `new_stream_request` takes. -/
def nextFree : Ptr := w.refill.mpRequestFreeList.getD 0

/-- The world after `new_stream_request`. -/
def take (fn : Fn) (c rank : Nat) (type : ReqType) (state : State) : World :=
  ((w.refill.popFree w.nextFree).bumpReqId c).setReq w.nextFree fun r => { r with
    peer := rank, flags := 0, sgv := none, next := none, prev := none, trigger := false, type := type
    status := state, id := (w.clients c).lastReqId + 1, owner := some fn }

theorem refill_clients : w.refill.clients = w.clients := by
  unfold refill; split <;> rfl

theorem refill_free : w.refill.mpRequestFreeList = some w.nextFree := by
  unfold nextFree refill
  split
  · rfl
  · rename_i h
    cases hf : w.mpRequestFreeList with
    | none => exact absurd hf h
    | some p => rfl

end World

theorem getRequest_run (s : Sys) :
    getRequest s = (.ok s.w.nextFree, { s with w := s.w.refill.popFree s.w.nextFree }) := by
  have hf := World.refill_free s.w
  by_cases h : s.w.mpRequestFreeList = none
  · have hr : s.w.refill = s.w.allocateRequests := by simp [World.refill, h]
    rw [hr] at hf ⊢
    simp [getRequest, allocateRequests, world, update, Prog.bind_run, Prog.pure_run, Prog.require, h, hf]
  · have hr : s.w.refill = s.w := by simp [World.refill, h]
    rw [hr] at hf ⊢
    simp [getRequest, world, update, Prog.bind_run, Prog.pure_run, hf]

/-- `new_stream_request` takes the next free request and its next id, unless
the client has used up its ids. -/
theorem newStreamRequest_run (fn : Fn) (c rank : Nat) (type : ReqType) (state : State) (s : Sys) :
    ((s.w.clients c).lastReqId < uintMax ∧ newStreamRequest fn c rank type state s =
      (.ok s.w.nextFree, { s with w := s.w.take fn c rank type state })) ∨
    (¬ (s.w.clients c).lastReqId < uintMax ∧
      ∃ s', newStreamRequest fn c rank type state s = (.error .assertReqId, s')) := by
  have hc : ((s.w.refill.popFree s.w.nextFree).clients c).lastReqId = (s.w.clients c).lastReqId := by
    show (s.w.refill.clients c).lastReqId = _
    rw [World.refill_clients]
  by_cases h : (s.w.clients c).lastReqId < uintMax
  · left
    refine ⟨h, ?_⟩
    rw [newStreamRequest, Prog.bind_ok (getRequest_run s)]
    simp [mpGetRequestId, client, world, update, Prog.bind_run, Prog.pure_run, Prog.require, hc, h,
      World.take]
  · right
    refine ⟨h, ?_⟩
    rw [newStreamRequest, Prog.bind_ok (getRequest_run s)]
    simp [mpGetRequestId, client, world, update, Prog.bind_run, Prog.pure_run, Prog.require, hc, h]

end LibMp
