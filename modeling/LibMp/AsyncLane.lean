import LibMp.AsyncActs

/- A rank of `async_exchange`: what its calls leave.

   The stream has the operations of the iterations in their order, as far as the
   calls have come: the operation with the number `m` is the one of the place `m`
   of the stream (`Lane.ops`). It belongs to the operation that was posted in the
   same iteration (`Matches`), and its request stays what it is, since no request
   is put back before the last flush. -/
namespace LibMp

/-- What a call does to the ready tables. -/
def AsyncOp.readies : AsyncOp → ReadyTables → ReadyTables
  | .sendReady peer, t => t.nextSent peer
  | .waitReady peer, t => t.nextExpected peer
  | _, t => t

namespace Asyncpong
variable {pp : Pingpong} {s : AsyncState} {k k' : AsyncRank} {c c' : Comm} {r p i j : Nat} {op : AsyncOp}
  {rest : List AsyncOp} {x : Option Ptr} {tape : List Ans}

/-- The iteration of the stream of rank `r`. -/
def acts (pp : Pingpong) (r : Nat) : List StreamAct := streamActs pp.job.size r

/-- How often rank `r` has made a call. -/
def called (pp : Pingpong) (r : Nat) (k : AsyncRank) (op : AsyncOp) : Nat := k.pos.countIn (body pp r) op

/-- Where its stream is. -/
def place (pp : Pingpong) (r : Nat) (k : AsyncRank) : Place StreamAct := .nth (acts pp r) k.ran

/-- How often its stream has done something. -/
def ran (pp : Pingpong) (r : Nat) (k : AsyncRank) (a : StreamAct) : Nat := (place pp r k).countIn (acts pp r) a

theorem body_nodup (pp : Pingpong) (r : Nat) : (body pp r).Nodup := asyncExchange_nodup pp.job.size r

theorem acts_nodup (pp : Pingpong) (r : Nat) : (acts pp r).Nodup := streamActs_nodup pp.job.size r

theorem body_length_le (pp : Pingpong) (r : Nat) : (body pp r).length ≤ 43 := by
  have h₁ := asyncExchange_length_le pp.job.size r
  have h₂ : pp.job.size ≤ 10 := pp.ranks
  unfold body
  omega

theorem peer_of_mem (h : op ∈ body pp r) (hop : op = .irecv p ∨ op = .sendReady p ∨ op = .waitReady p ∨ op = .isend p) :
    p < pp.job.size ∧ p ≠ r := by
  rcases mem_asyncExchange.mp h with h | rfl | rfl | rfl
  · obtain ⟨q, hq, h⟩ := mem_asyncPosts.mp h
    rcases hop with rfl | rfl | rfl | rfl <;> · simp at h; rw [h]; exact hq
  all_goals simp at hop

/-! ## What is on the stream -/

/-- The operation is the one of the act, in iteration `j`. -/
inductive Matches (pp : Pingpong) (r : Nat) (k : AsyncRank) (j : Nat) : StreamAct → StreamOp → Prop where
  | put {q : Ptr} {p : Nat} : q ∈ entries k.comm.reqs → (k.comm.sys.w.mem q).type = .rdma →
      (k.comm.sys.w.mem q).peer = p →
      j < called pp r k (.irecv p) → j < called pp r k (.sendReady p) → Matches pp r k j (.put p) (.queueSend q)
  | ready {p : Nat} : Matches pp r k j (.ready p) (.wait (.user (pp.job.tableAt r + 4 * p)) ((1 + j) % 2 ^ 32) .geq)
  | send {q : Ptr} {p : Nat} : q ∈ entries k.comm.reqs → (k.comm.sys.w.mem q).type = .send →
      (k.comm.sys.w.mem q).peer = p →
      Matches pp r k j (.send p) (.queueSend q)
  | recvDone {p i n op : Nat} : (pp.job.comm r).mp.clientIndex p = some i → (k.recvq p)[j]? = some op →
      Matches pp r k j (.recvDone p) (.waitCq (some ⟨n, i, .rx, op⟩))
  | sendDone {p i n op : Nat} : (pp.job.comm r).mp.clientIndex p = some i → (k.sendq p)[j]? = some op →
      Matches pp r k j (.sendDone p) (.waitCq (some ⟨n, i, .tx, op⟩))

/-- What a rank keeps, whatever it calls. -/
structure Grows (pp : Pingpong) (r : Nat) (k k' : AsyncRank) : Prop where
  entries : entries k.comm.reqs ⊆ entries k'.comm.reqs
  same : ∀ q ∈ LibMp.entries k.comm.reqs, (k'.comm.sys.w.mem q).type = (k.comm.sys.w.mem q).type ∧
    (k'.comm.sys.w.mem q).peer = (k.comm.sys.w.mem q).peer
  recvq : ∀ p, k.recvq p <+: k'.recvq p
  sendq : ∀ p, k.sendq p <+: k'.sendq p
  called : ∀ op, called pp r k op ≤ called pp r k' op

/-- An entry of a list that grows. -/
theorem get_of_grown {l l' : List Nat} {n v : Nat} (h : l <+: l') (hn : l[n]? = some v) : l'[n]? = some v := by
  obtain ⟨t, rfl⟩ := h
  rw [List.getElem?_append_left (List.getElem?_eq_some_iff.mp hn).1]
  exact hn

theorem Matches.grows {a : StreamAct} {o : StreamOp} (h : Matches pp r k j a o) (hg : Grows pp r k k') :
    Matches pp r k' j a o := by
  cases h with
  | put hq hty hpeer hrecv htold =>
    obtain ⟨hty', hpeer'⟩ := hg.same _ hq
    exact .put (hg.entries hq) (hty'.trans hty) (hpeer'.trans hpeer) (Nat.lt_of_lt_of_le hrecv (hg.called _))
      (Nat.lt_of_lt_of_le htold (hg.called _))
  | ready => exact .ready
  | send hq hty hpeer =>
    obtain ⟨hty', hpeer'⟩ := hg.same _ hq
    exact .send (hg.entries hq) (hty'.trans hty) (hpeer'.trans hpeer)
  | recvDone hi hop => exact .recvDone hi (get_of_grown (hg.recvq _) hop)
  | sendDone hi hop => exact .sendDone hi (get_of_grown (hg.sendq _) hop)

/-! ## The requests of an iteration -/

/-- The second request is the first one, untouched. -/
def Untouched (q q' : Request) : Prop :=
  q'.type = q.type ∧ q'.peer = q.peer ∧ q'.id = q.id ∧ q'.flags = q.flags ∧ q'.status = q.status ∧
    q'.gdsWaitInfo = q.gdsWaitInfo

/-- The request `q` was posted in iteration `j` for the peer `p`, and nobody has
waited for it. -/
structure Stored (pp : Pingpong) (r : Nat) (c : Comm) (j : Nat) (type : ReqType) (queue : Nat → List Nat) (p : Nat)
    (q : Ptr) : Prop where
  mem : q ∈ entries c.reqs
  type_eq : (c.sys.w.mem q).type = type
  peer_eq : (c.sys.w.mem q).peer = p
  status : (c.sys.w.mem q).status = .pendingNowait
  waitable : nowait (c.sys.w.mem q).flags = false
  own : Own (pp.job.comm r).mp c.sys.w q
  queued : (queue p)[j]? = some (c.sys.w.mem q).id

namespace Stored
variable {type : ReqType} {queue queue' : Nat → List Nat} {q : Ptr}

theorem keep (h : Stored pp r c j type queue p q) (hin : entries c.reqs ⊆ entries c'.reqs)
    (hq : Untouched (c.sys.w.mem q) (c'.sys.w.mem q)) (hqueue : queue p <+: queue' p) :
    Stored pp r c' j type queue' p q := by
  obtain ⟨h1, h2, h3, h4, h5, h6⟩ := hq
  obtain ⟨n, i, hinfo, hi⟩ := h.own
  refine ⟨hin h.mem, h1.trans h.type_eq, h2.trans h.peer_eq, h5.trans h.status, ?_, ⟨n, i, ?_, ?_⟩, ?_⟩
  · rw [h4]
    exact h.waitable
  · rw [h6, h1, h3]
    exact hinfo
  · rw [h2]
    exact hi
  · rw [h3]
    exact get_of_grown hqueue h.queued

theorem unwaited (h : Stored pp r c j type queue p q) (hty : type = .recv ∨ type = .send) : Unwaited c.sys.w q := by
  have hreq := h.type_eq
  refine ⟨?_, ?_, h.status⟩
  · rw [hreq]
    rcases hty with rfl | rfl <;> decide
  · rw [Request.canBeWaited, hreq, h.waitable]
    rcases hty with rfl | rfl <;> rfl

end Stored

/-- The requests of a list, for the peers of another one. -/
def StoredFor (pp : Pingpong) (r : Nat) (c : Comm) (j : Nat) (type : ReqType) (queue : Nat → List Nat) (ps : List Nat)
    (qs : List Ptr) : Prop := List.Forall₂ (Stored pp r c j type queue) ps qs

namespace StoredFor
variable {type : ReqType} {queue queue' : Nat → List Nat} {ps : List Nat} {qs : List Ptr}

theorem exists_peer (h : StoredFor pp r c j type queue ps qs) {q : Ptr} (hq : q ∈ qs) :
    ∃ p ∈ ps, Stored pp r c j type queue p q := by
  induction h with
  | nil => cases hq
  | @cons p q' ps qs hhead _ ih =>
    rcases List.mem_cons.mp hq with rfl | hq
    · exact ⟨p, List.mem_cons_self, hhead⟩
    · obtain ⟨p', hp', h'⟩ := ih hq
      exact ⟨p', List.mem_cons_of_mem p hp', h'⟩

/-- Requests for different peers are different. -/
theorem nodup (h : StoredFor pp r c j type queue ps qs) (hnd : ps.Nodup) : qs.Nodup := by
  induction h with
  | nil => exact List.nodup_nil
  | @cons p q ps qs hhead hrest ih =>
    obtain ⟨hp, hnd'⟩ := List.nodup_cons.mp hnd
    refine List.nodup_cons.mpr ⟨fun hq => ?_, ih hnd'⟩
    obtain ⟨p', hp', hother⟩ := StoredFor.exists_peer hrest hq
    have hsame : p' = p := hother.peer_eq.symm.trans hhead.peer_eq
    exact hp (hsame ▸ hp')

theorem keep (h : StoredFor pp r c j type queue ps qs) (hin : entries c.reqs ⊆ entries c'.reqs)
    (hq : ∀ q ∈ qs, q ∈ entries c.reqs → Untouched (c.sys.w.mem q) (c'.sys.w.mem q))
    (hqueue : ∀ p, queue p <+: queue' p) : StoredFor pp r c' j type queue' ps qs := by
  induction h with
  | nil => exact .nil
  | cons hhead _ ih =>
    refine .cons (hhead.keep hin (hq _ List.mem_cons_self hhead.mem) (hqueue _)) (ih fun q hmem => ?_)
    exact hq q (List.mem_cons_of_mem _ hmem)

end StoredFor

/-! ## A rank in order -/

/-- Distinct ids up to `n`. -/
structure IdsTo (n : Nat) (l : List Nat) : Prop where
  nodup : l.Nodup
  le : ∀ v ∈ l, v ≤ n

theorem IdsTo.mono {n n' : Nat} {l : List Nat} (h : IdsTo n l) (hn : n ≤ n') : IdsTo n' l :=
  ⟨h.nodup, fun v hv => (h.le v hv).trans hn⟩

theorem IdsTo.next {n : Nat} {l : List Nat} (h : IdsTo n l) : IdsTo (n + 1) (l ++ [n + 1]) := by
  refine ⟨List.nodup_append.mpr ⟨h.nodup, List.nodup_singleton _, fun v hv v' hv' => ?_⟩, fun v hv => ?_⟩
  · have hle := h.le v hv
    rw [List.mem_singleton.mp hv']
    omega
  · rcases List.mem_append.mp hv with hv | hv
    · exact (h.le v hv).trans (Nat.le_succ n)
    · rw [List.mem_singleton.mp hv]

section Push
variable {queue : Nat → List Nat} {l : List Nat} {q : Nat}

/-- A queue that grows at one place grows. -/
theorem prefix_push (queue : Nat → List Nat) (p : Nat) (l : List Nat) (q : Nat) :
    queue q <+: Function.update queue p (queue p ++ l) q := by
  rw [Function.update_apply]
  split
  · rename_i hq
    rw [hq]
    exact List.prefix_append _ _
  · exact List.prefix_rfl

theorem length_push (hl : l.length = 1) :
    (Function.update queue p (queue p ++ l) q).length = (queue q).length + if q = p then 1 else 0 := by
  rw [Function.update_apply]
  by_cases hq : q = p
  · rw [if_pos hq, if_pos hq, List.length_append, hl, hq]
  · rw [if_neg hq, if_neg hq]
    rfl

/-- What is added at `p` is the next id. -/
theorem IdsTo.push {n n' : Nat} (h : IdsTo n (queue q)) (hn : n ≤ n') (hnew : q = p → l = [n + 1] ∧ n' = n + 1) :
    IdsTo n' (Function.update queue p (queue p ++ l) q) := by
  rw [Function.update_apply]
  by_cases hq : q = p
  · obtain ⟨rfl, rfl⟩ := hnew hq
    rw [if_pos hq, ← hq]
    exact h.next
  · rw [if_neg hq]
    exact h.mono hn

end Push

/-- The rank is in its place, its table and its ids are in order, and so are the
operations on its stream. -/
structure Lane (pp : Pingpong) (r : Nat) (k : AsyncRank) : Prop where
  pos : k.pos.In (body pp r)
  rounds : k.pos.round ≤ pp.totIters
  ended : k.pos.round = pp.totIters → k.pos.did = []
  rank : RankOk (pp.job.comm r).mp k.comm (k.pos.steps (body pp r))
  room : k.comm.reqs.length ≤ k.pos.steps (body pp r)
  inUse : InUse World.init k.comm []
  fed : k.ops.length = k.pos.fed (AsyncOp.acts pp.job.size r) (body pp r)
  ops : ∀ m o, k.ops[m]? = some o → ∃ a l, (Place.nth (acts pp r) m).todo = a :: l ∧
    Matches pp r k (Place.nth (acts pp r) m).round a o
  ran : k.ran ≤ k.ops.length
  expected : ∀ p, k.comm.ready.readyValues p = (1 + called pp r k (.waitReady p)) % 2 ^ 32
  recvq : ∀ p, (k.recvq p).length = called pp r k (.irecv p)
  sendq : ∀ p, (k.sendq p).length = called pp r k (.isend p)
  ids : ∀ p i, (pp.job.comm r).mp.clientIndex p = some i →
    IdsTo (k.comm.sys.w.clients i).lastReqId (k.recvq p) ∧ IdsTo (k.comm.sys.w.clients i).lastReqId (k.sendq p)
  recvs : StoredFor pp r k.comm k.pos.round .recv k.recvq (opened AsyncOp.recvPeer .waitRecvs k.pos.did) k.recvs
  sends : StoredFor pp r k.comm k.pos.round .send k.sendq (opened AsyncOp.sendPeer .waitSends k.pos.did) k.sends

namespace Lane
variable (h : Lane pp r k)
include h

/-- There are ids and there is room for the next call. -/
theorem able (hround : k.pos.round < pp.totIters) :
    (∀ d, (k.comm.sys.w.clients d).lastReqId < uintMax) ∧ k.comm.reqs.length < maxReqs := by
  have hiters : pp.totIters ≤ 128 := pp.iters
  have hle : pp.totIters * (body pp r).length ≤ 128 * 43 := Nat.mul_le_mul hiters (body_length_le pp r)
  have hsteps : k.pos.steps (body pp r) < 128 * 43 := Nat.lt_of_lt_of_le (h.pos.steps_lt hround) hle
  refine ⟨fun d => ?_, ?_⟩
  · calc (k.comm.sys.w.clients d).lastReqId ≤ k.pos.steps (body pp r) := h.rank.ids d
      _ < 128 * 43 := hsteps
      _ < uintMax := by decide
  · calc k.comm.reqs.length ≤ k.pos.steps (body pp r) := h.room
      _ < 128 * 43 := hsteps
      _ < maxReqs := by decide

theorem called_head (htodo : k.pos.todo = op :: rest) : called pp r k op = k.pos.round :=
  h.pos.countIn_head (body_nodup pp r) htodo

theorem called_after (htodo : k.pos.todo = op :: rest) (ps : List Put) (o : AsyncOp) :
    called pp r (rankAfter pp r k op x ps c) o = called pp r k o + if o = op then 1 else 0 :=
  h.pos.countIn_next (body_nodup pp r) htodo o

end Lane

/-! ## What a call leaves -/

theorem forall₂_get {α β : Type} {R : α → β → Prop} {as : List α} {bs : List β} (h : List.Forall₂ R as bs) {n : Nat}
    {b : β} (hb : bs[n]? = some b) : ∃ a, as[n]? = some a ∧ R a b := by
  induction h generalizing n with
  | nil => cases hb
  | cons hhead _ ih =>
    cases n with
    | zero =>
      cases hb
      exact ⟨_, rfl, hhead⟩
    | succ n => exact ih hb

/-- What a call that came back has left; `k'` is the rank then. -/
structure Returned (pp : Pingpong) (r : Nat) (k : AsyncRank) (op : AsyncOp) (x : Option Ptr) (c : Comm)
    (k' : AsyncRank) : Prop where
  rank : RankOk (pp.job.comm r).mp c (k.pos.steps (body pp r) + 1)
  room : c.reqs.length ≤ k.comm.reqs.length + 1
  inUse : InUse World.init c []
  entries : entries k.comm.reqs ⊆ entries c.reqs
  same : ∀ q ∈ LibMp.entries k.comm.reqs, (c.sys.w.mem q).type = (k.comm.sys.w.mem q).type ∧
    (c.sys.w.mem q).peer = (k.comm.sys.w.mem q).peer
  ids : ∀ d, (k.comm.sys.w.clients d).lastReqId ≤ (c.sys.w.clients d).lastReqId
  newId : ∀ p i, op = .irecv p ∨ op = .isend p → (pp.job.comm r).mp.clientIndex p = some i →
    posted x c = [(k.comm.sys.w.clients i).lastReqId + 1] ∧
      (c.sys.w.clients i).lastReqId = (k.comm.sys.w.clients i).lastReqId + 1
  ready : c.ready = op.readies k.comm.ready
  ops : ∃ l, (c.sys.w.streams 0).todo = k.ops ++ l ∧
    List.Forall₂ (Matches pp r k' k.pos.round) (op.acts pp.job.size r) l
  recvs : StoredFor pp r c k.pos.round .recv k'.recvq (opened AsyncOp.recvPeer .waitRecvs (k.pos.did ++ [op])) k'.recvs
  sends : StoredFor pp r c k.pos.round .send k'.sendq (opened AsyncOp.sendPeer .waitSends (k.pos.did ++ [op])) k'.sends

/-- The requests that are stored are those of the current iteration. -/
theorem StoredFor.next {type : ReqType} {queue : Nat → List Nat} {f : AsyncOp → Option Nat} {wait : AsyncOp}
    {qs : List Ptr} {pos : Place AsyncOp} (hpos : pos.In (body pp r)) (htodo : pos.todo = op :: rest)
    (hbody : opened f wait (body pp r) = [])
    (h : StoredFor pp r c pos.round type queue (opened f wait (pos.did ++ [op])) qs) :
    StoredFor pp r c (pos.next (body pp r)).round type queue (opened f wait (pos.next (body pp r)).did) qs := by
  cases rest with
  | cons z rest =>
    rw [Place.next_inner htodo]
    exact h
  | nil =>
    -- at the end of an iteration none is left
    have hend : pos.did ++ [op] = body pp r := by
      rw [← hpos.split, htodo]
    rw [hend, hbody] at h
    cases h
    rw [Place.next_last htodo]
    exact .nil

section After
variable (h : Lane pp r k) (htodo : k.pos.todo = op :: rest) {ps : List Put}
  (hret : Returned pp r k op x c (rankAfter pp r k op x ps c))
include h htodo hret

theorem Lane.grows : Grows pp r k (rankAfter pp r k op x ps c) := by
  refine ⟨hret.entries, hret.same, fun p => ?_, fun p => ?_, fun o => ?_⟩
  · cases op with
    | irecv q => exact prefix_push k.recvq q _ p
    | _ => exact List.prefix_rfl
  · cases op with
    | isend q => exact prefix_push k.sendq q _ p
    | _ => exact List.prefix_rfl
  · rw [h.called_after htodo]
    exact Nat.le_add_right ..

/-- The operations on the stream go on in their order. -/
theorem Lane.ops_after (m : Nat) (o : StreamOp) (ho : (rankAfter pp r k op x ps c).ops[m]? = some o) :
    ∃ a l, (Place.nth (acts pp r) m).todo = a :: l ∧
      Matches pp r (rankAfter pp r k op x ps c) (Place.nth (acts pp r) m).round a o := by
  obtain ⟨l, hops, hnew⟩ := hret.ops
  have hsplit : (rankAfter pp r k op x ps c).ops = k.ops ++ l := hops
  rw [hsplit] at ho
  by_cases hlt : m < k.ops.length
  · rw [List.getElem?_append_left hlt] at ho
    obtain ⟨a, l', ha, hm⟩ := h.ops m o ho
    exact ⟨a, l', ha, hm.grows (h.grows htodo hret)⟩
  · -- it was posted by this call
    have hle := Nat.le_of_not_lt hlt
    rw [List.getElem?_append_right hle] at ho
    obtain ⟨a, ha, hm⟩ := forall₂_get hnew ho
    obtain ⟨hround, l', hl'⟩ := h.pos.nth_fed (f := AsyncOp.acts pp.job.size r) htodo ha
    have hnum : k.pos.fed (AsyncOp.acts pp.job.size r) (body pp r) + (m - k.ops.length) = m := by
      rw [← h.fed]
      omega
    rw [hnum] at hround hl'
    refine ⟨a, l', hl', ?_⟩
    show Matches pp r _ (Place.nth ((body pp r).flatMap (AsyncOp.acts pp.job.size r)) m).round a o
    rw [hround]
    exact hm

/-- A call leaves the rank in order. -/
theorem Lane.after (hround : k.pos.round < pp.totIters) : Lane pp r (rankAfter pp r k op x ps c) := by
  have hcalled := h.called_after htodo (x := x) (c := c) ps
  have hid : ∀ d, (k.comm.sys.w.clients d).lastReqId ≤ (c.sys.w.clients d).lastReqId := hret.ids
  have hpeer : ∀ p, op = .irecv p ∨ op = .isend p → ∃ i, (pp.job.comm r).mp.clientIndex p = some i :=
    fun p hp => Pingpong.exists_client (peer_of_mem (h.pos.head_mem htodo) (p := p) (by tauto))
  have hone : ∀ p, op = .irecv p ∨ op = .isend p → (posted x c).length = 1 := by
    intro p hp
    obtain ⟨i, hi⟩ := hpeer p hp
    rw [(hret.newId p i hp hi).1]
    rfl
  constructor
  case pos => exact h.pos.next
  case rounds => exact (Place.next_round k.pos).trans hround
  case ended => exact fun hend => Place.next_did fun he => hround.ne (he.symm.trans hend)
  case rank =>
    show RankOk _ c ((k.pos.next (body pp r)).steps (body pp r))
    rw [h.pos.steps_next]
    exact hret.rank
  case room =>
    show c.reqs.length ≤ (k.pos.next (body pp r)).steps (body pp r)
    rw [h.pos.steps_next]
    exact hret.room.trans (Nat.succ_le_succ h.room)
  case inUse => exact hret.inUse
  case fed =>
    obtain ⟨l, hops, hnew⟩ := hret.ops
    have hsplit : (rankAfter pp r k op x ps c).ops = k.ops ++ l := hops
    show _ = (k.pos.next (body pp r)).fed _ (body pp r)
    rw [hsplit, List.length_append, h.fed, h.pos.fed_next htodo, hnew.length_eq]
  case ops => exact h.ops_after htodo hret
  case ran =>
    obtain ⟨l, hops, -⟩ := hret.ops
    have hsplit : (rankAfter pp r k op x ps c).ops = k.ops ++ l := hops
    rw [hsplit, List.length_append]
    exact h.ran.trans (Nat.le_add_right ..)
  case expected =>
    intro p
    show c.ready.readyValues p = _
    rw [hret.ready, hcalled]
    have hold := h.expected p
    cases op with
    | waitReady q =>
      show (k.comm.ready.nextExpected q).readyValues p = _
      rw [nextExpected_values]
      by_cases hp : p = q
      · rw [if_pos hp, if_pos (by rw [hp]), hold]
        omega
      · rw [if_neg hp, if_neg (by simpa using hp)]
        exact hold
    | _ => exact hold
  case recvq =>
    intro p
    rw [hcalled]
    have hold := h.recvq p
    cases op with
    | irecv q =>
      refine (length_push (hone q (.inl rfl))).trans ?_
      rw [hold]
      simp
    | _ => exact hold
  case sendq =>
    intro p
    rw [hcalled]
    have hold := h.sendq p
    cases op with
    | isend q =>
      refine (length_push (hone q (.inr rfl))).trans ?_
      rw [hold]
      simp
    | _ => exact hold
  case ids =>
    intro p i hi
    obtain ⟨hrecv, hsend⟩ := h.ids p i hi
    refine ⟨?_, ?_⟩
    · cases op with
      | irecv q => exact hrecv.push (hid i) fun hp => hret.newId q i (.inl rfl) (hp ▸ hi)
      | _ => exact hrecv.mono (hid i)
    · cases op with
      | isend q => exact hsend.push (hid i) fun hp => hret.newId q i (.inr rfl) (hp ▸ hi)
      | _ => exact hsend.mono (hid i)
  case recvs => exact hret.recvs.next h.pos htodo (opened_asyncExchange pp.job.size r).1
  case sends => exact hret.sends.next h.pos htodo (opened_asyncExchange pp.job.size r).2

end After

end Asyncpong

end LibMp
