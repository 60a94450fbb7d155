import LibMp.AsyncLane

/- What the calls of `async_exchange` do to their rank: each of them comes back,
   and leaves the rank in order.

   The posting calls and the waits on the stream are run; of `comm_progress` it is
   only said what it leaves, and that it can come back. -/
namespace LibMp
namespace Asyncpong
variable {pp : Pingpong} {k : AsyncRank} {c : Comm} {r p i : Nat} {op : AsyncOp} {rest : List AsyncOp}
  {x : Option Ptr} {tape : List Ans} {ps : List Put}

/-! ## The posting calls -/

/-- A request that is posted now is none of those that are stored. -/
theorem untouched_of_posted {ids fl : Nat} {f : Flow} {type : ReqType} {st : Stream} {l : List StreamOp}
    (hrank : RankOk (pp.job.comm r).mp k.comm ids)
    (hnew : Posted (pp.job.comm r).mp k.comm.sys.w c.sys.w i f fl type st l) {q : Ptr}
    (hq : q ∈ entries k.comm.reqs) : q ≠ k.comm.sys.w.nextFree ∧
      Untouched (k.comm.sys.w.mem q) (c.sys.w.mem q) := by
  obtain ⟨peer, o, hrec⟩ := hrank.table.recorded_entries q hq
  have hne : q ≠ k.comm.sys.w.nextFree := (hrec.posted hrank.table.core hnew.new).2
  obtain ⟨⟨hty, hpeer, hid, hst, -, -⟩, hflags⟩ := hnew.new.rest q hne
  exact ⟨hne, hty, hpeer, hid, hflags, hst, hnew.infos q hne⟩

theorem StoredFor.concat {type : ReqType} {queue : Nat → List Nat} {l : List Nat} {qs : List Ptr} {j : Nat} {q : Ptr}
    (h : StoredFor pp r c j type queue l qs) (hq : Stored pp r c j type queue p q) :
    StoredFor pp r c j type queue (l ++ [p]) (qs ++ [q]) :=
  List.rel_append h (.cons hq .nil)

section Posts
variable (h : Lane pp r k) (htodo : k.pos.todo = op :: rest) (hi : (pp.job.comm r).mp.clientIndex p = some i)
include h htodo hi

/-- A call that has posted its request and recorded it. -/
theorem returned_of_posted {o : CommOp} (ho : o.isSendReady = false) (hhandles : o.handles = none) {f : Flow} {fl : Nat}
    {type : ReqType} {l : List StreamOp} (hop : op = .irecv p ∨ op = .sendReady p ∨ op = .isend p)
    (hnew : Posted (pp.job.comm r).mp k.comm.sys.w c.sys.w i f fl type 0 l) (hfl : nowait fl = false)
    (hreqs : c.reqs = k.comm.reqs ++ [⟨k.comm.sys.w.nextFree, (c.sys.w.mem k.comm.sys.w.nextFree).peer,
      (c.sys.w.mem k.comm.sys.w.nextFree).id⟩]) (hready : c.ready = op.readies k.comm.ready)
    (htype : op = .irecv p ∧ type = .recv ∨ op = .isend p ∧ type = .send ∨ op = .sendReady p)
    (hops : List.Forall₂ (Matches pp r (rankAfter pp r k op (some k.comm.sys.w.nextFree) ps c) k.pos.round)
      (op.acts pp.job.size r) l) :
    Returned pp r k op (some k.comm.sys.w.nextFree) c
      (rankAfter pp r k op (some k.comm.sys.w.nextFree) ps c) := by
  have he : (pp.job.comm r).mp.useEventSync = false := pp.noEventSync r
  have hdid : Did (pp.job.comm r).mp o k.comm c := .tracked ho hhandles hnew.new hfl hreqs
  have hids : ∀ d, (c.sys.w.clients d).lastReqId ≤ (k.comm.sys.w.clients d).lastReqId + 1 := by
    intro d
    rw [hnew.ids]
    split <;> omega
  have hentries : entries c.reqs = entries k.comm.reqs ++ [k.comm.sys.w.nextFree] := by
    rw [hreqs, entries, List.map_append]
    rfl
  have hsub : entries k.comm.reqs ⊆ entries c.reqs := by
    rw [hentries]
    exact List.subset_append_left ..
  have hold : ∀ q ∈ entries k.comm.reqs, q ≠ k.comm.sys.w.nextFree ∧
      Untouched (k.comm.sys.w.mem q) (c.sys.w.mem q) := fun q hq => untouched_of_posted h.rank hnew hq
  have hpeer : (c.sys.w.mem k.comm.sys.w.nextFree).peer = p := hnew.peer_eq.trans (Config.mpiRank_eq hi)
  have hposted : posted (some k.comm.sys.w.nextFree) c = [(k.comm.sys.w.clients i).lastReqId + 1] :=
    congrArg (fun v => [v]) hnew.id_eq
  -- the new request, as one that is stored
  have hstored : ∀ queue : Nat → List Nat, (queue p).length = k.pos.round → Stored pp r c k.pos.round type
      (Function.update queue p (queue p ++ posted (some k.comm.sys.w.nextFree) c)) p k.comm.sys.w.nextFree := by
    intro queue hlen
    refine ⟨?_, hnew.type_eq, hpeer, hnew.new.status, ?_, hnew.own, ?_⟩
    · rw [hentries]
      exact List.mem_append_right _ (List.mem_singleton_self _)
    · rw [hnew.new.flags]
      exact hfl
    · rw [Function.update_self, ← hlen]
      exact List.getElem?_concat_length
  have hkeep : ∀ {ty : ReqType} {queue queue' : Nat → List Nat} {l : List Nat} {qs : List Ptr},
      StoredFor pp r k.comm k.pos.round ty queue l qs → (∀ p, queue p <+: queue' p) →
      StoredFor pp r c k.pos.round ty queue' l qs :=
    fun hs hqueue => hs.keep hsub (fun q _ hq => (hold q hq).2) hqueue
  have hround := h.called_head htodo
  constructor
  case rank => exact h.rank.step he hhandles hdid hids
  case room =>
    rw [hreqs, List.length_append]
    exact Nat.le_refl _
  case inUse =>
    obtain ⟨leaked, hlen, hin⟩ := h.inUse.step he h.rank.table hhandles hdid
    rw [ho] at hlen
    obtain rfl := List.length_eq_zero_iff.mp hlen
    exact hin
  case entries => exact hsub
  case same => exact fun q hq => ⟨(hold q hq).2.1, (hold q hq).2.2.1⟩
  case ids =>
    intro d
    rw [hnew.ids]
    exact Nat.le_add_right ..
  case newId =>
    intro p' i' hop' hi'
    have hp : p' = p := by
      rcases hop with rfl | rfl | rfl <;> simp at hop' <;> exact hop'.symm
    rw [hp, hi] at hi'
    cases hi'
    refine ⟨hposted, ?_⟩
    rw [hnew.ids, if_pos rfl]
  case ready => exact hready
  case ops => exact ⟨l, hnew.stream, hops⟩
  case recvs =>
    rcases htype with ⟨rfl, rfl⟩ | ⟨rfl, rfl⟩ | rfl
    · have hlen : (k.recvq p).length = k.pos.round := (h.recvq p).trans hround
      rw [opened_concat]
      exact (hkeep h.recvs (prefix_push k.recvq p _)).concat (hstored k.recvq hlen)
    · rw [opened_other _ (by simp) rfl]
      exact hkeep h.recvs fun _ => List.prefix_rfl
    · rw [opened_other _ (by simp) rfl]
      exact hkeep h.recvs fun _ => List.prefix_rfl
  case sends =>
    rcases htype with ⟨rfl, rfl⟩ | ⟨rfl, rfl⟩ | rfl
    · rw [opened_other _ (by simp) rfl]
      exact hkeep h.sends fun _ => List.prefix_rfl
    · have hlen : (k.sendq p).length = k.pos.round := (h.sendq p).trans hround
      rw [opened_concat]
      exact (hkeep h.sends (prefix_push k.sendq p _)).concat (hstored k.sendq hlen)
    · rw [opened_other _ (by simp) rfl]
      exact hkeep h.sends fun _ => List.prefix_rfl

end Posts

/-- The call comes back with these answers, and leaves the rank in order. -/
def ComesBack (pp : Pingpong) (r : Nat) (k : AsyncRank) (op : AsyncOp) (tape : List Ans) : Prop :=
  ∃ x c, call pp r k op (k.comm.given tape []) = (.ok x, c) ∧ ∀ ps, Returned pp r k op x c (rankAfter pp r k op x ps c)

section Runs
variable (h : Lane pp r k) (hround : k.pos.round < pp.totIters)
include h hround

omit hround in
theorem called_one (htodo : k.pos.todo = op :: rest) (ps : List Put) {o : AsyncOp} (ho : o = op ∨
    [o, op].Sublist (body pp r)) : k.pos.round < called pp r (rankAfter pp r k op x ps c) o := by
  rw [h.called_after htodo]
  rcases ho with rfl | ho
  · rw [if_pos rfl, h.called_head htodo]
    exact Nat.lt_succ_self _
  · have hone : called pp r k o = k.pos.round + 1 := h.pos.countIn_before (body_nodup pp r) htodo ho
    omega

theorem irecv_comes_back (htodo : k.pos.todo = .irecv p :: rest) (ht : Succeeds tape) :
    ComesBack pp r k (.irecv p) tape := by
  have he : (pp.job.comm r).mp.useEventSync = false := pp.noEventSync r
  have hpeer := peer_of_mem (h.pos.head_mem htodo) (p := p) (by tauto)
  obtain ⟨i, hi⟩ := Pingpong.exists_client hpeer
  obtain ⟨hid, hroom⟩ := h.able hround
  have hrank : p < (pp.job.comm r).commSize := hpeer.1
  have hsize : pp.maxSize * MpiType.char.sizeof % 2 ^ 64 ≠ 0 := by
    rw [MpiType.sizeof, Nat.mul_one]
    exact pp.notEmpty
  have hpost : ∀ n reg, ∃ w', Posted (pp.job.comm r).mp k.comm.sys.w w' i .rx 0 .recv 0 [] ∧
      Leaves (mpIrecv (pp.job.comm r).mp (pp.recvBuf r p) n p reg) k.comm.sys.w w' :=
    fun n reg => mpIrecv_posted hi (hid i) he (pp.recvBuf r p) 0
  obtain ⟨c, hrun, hnew, hready, hreqs⟩ := commPost_runs (c := k.comm.given tape []) hsize hrank hpost hroom
    (pp.rreg r + 8 * p) ht
  refine ⟨_, c, Prog.bind_ok hrun _, fun ps => ?_⟩
  exact returned_of_posted h htodo hi (o := .irecv (pp.recvBuf r p) pp.maxSize .char (pp.rreg r + 8 * p) p) rfl rfl
    (.inl rfl) hnew rfl hreqs hready (.inl ⟨rfl, rfl⟩) .nil

theorem isend_comes_back (htodo : k.pos.todo = .isend p :: rest) (ht : Succeeds tape) :
    ComesBack pp r k (.isend p) tape := by
  have he : (pp.job.comm r).mp.useEventSync = false := pp.noEventSync r
  have hpeer := peer_of_mem (h.pos.head_mem htodo) (p := p) (by tauto)
  obtain ⟨i, hi⟩ := Pingpong.exists_client hpeer
  obtain ⟨hid, hroom⟩ := h.able hround
  have hrank : p < (pp.job.comm r).commSize := hpeer.1
  have hsize : pp.maxSize * MpiType.char.sizeof % 2 ^ 64 ≠ 0 := by
    rw [MpiType.sizeof, Nat.mul_one]
    exact pp.notEmpty
  have hpost : ∀ n reg, ∃ w', Posted (pp.job.comm r).mp k.comm.sys.w w' i .tx 0 .send 0
      [.queueSend k.comm.sys.w.nextFree] ∧
      Leaves (mpIsendOnStream (pp.job.comm r).mp (pp.sendBuf r p) n p reg 0) k.comm.sys.w w' :=
    fun n reg => mpIsendOnStream_posted hi (hid i) he (pp.sendBuf r p) 0
  obtain ⟨c, hrun, hnew, hready, hreqs⟩ := @commPost_runs _ (k.comm.given tape []) _ _ _ hsize hrank
    (fun n peer reg => mpIsendOnStream (pp.job.comm r).mp (pp.sendBuf r p) n peer reg 0) _ hpost hroom
    (pp.sreg r + 8 * p) ht
  refine ⟨_, c, Prog.bind_ok hrun _, fun ps => ?_⟩
  have hmem : k.comm.sys.w.nextFree ∈ entries c.reqs := by
    rw [hreqs, entries, List.map_append]
    exact List.mem_append_right _ (List.mem_singleton_self _)
  have hp : (c.sys.w.mem k.comm.sys.w.nextFree).peer = p := hnew.peer_eq.trans (Config.mpiRank_eq hi)
  exact returned_of_posted h htodo hi (o := .isendOnStream (pp.sendBuf r p) pp.maxSize .char (pp.sreg r + 8 * p) p 0)
    rfl rfl (.inr (.inr rfl)) hnew rfl hreqs hready (.inr (.inl ⟨rfl, rfl⟩)) (.cons (.send hmem hnew.type_eq hp) .nil)

theorem sendReady_comes_back (hr : r < pp.job.size) (htodo : k.pos.todo = .sendReady p :: rest) (ht : Succeeds tape) :
    ComesBack pp r k (.sendReady p) tape := by
  have hpeer := peer_of_mem (h.pos.head_mem htodo) (p := p) (by tauto)
  obtain ⟨i, hi⟩ := Pingpong.exists_client hpeer
  obtain ⟨hid, hroom⟩ := h.able hround
  obtain ⟨c, hrun, hnew, hready, hreqs⟩ := commSendReadyOnStream_runs (c := k.comm.given tape []) hi (pp.noUd r)
    (hid i) hpeer.1 (Pingpong.slot_inside hr i) hroom 0 ht
  refine ⟨_, c, Prog.bind_ok hrun _, fun ps => ?_⟩
  have hmem : k.comm.sys.w.nextFree ∈ entries c.reqs := by
    rw [hreqs, entries, List.map_append]
    exact List.mem_append_right _ (List.mem_singleton_self _)
  have hp : (c.sys.w.mem k.comm.sys.w.nextFree).peer = p := hnew.peer_eq.trans (Config.mpiRank_eq hi)
  refine returned_of_posted h htodo hi (o := .sendReadyOnStream p 0) rfl rfl (.inr (.inl rfl)) hnew
    mpPutInline_waitable hreqs hready (.inr (.inr rfl)) (.cons (.put hmem hnew.type_eq hp ?_ ?_) .nil)
  · exact called_one h htodo ps (.inr (irecv_before_put hpeer))
  · exact called_one h htodo ps (.inl rfl)

end Runs

/-! ## The waits on the stream -/

section Waits
variable (h : Lane pp r k)
include h

/-- A call that has put waits on the stream. -/
theorem returned_of_waits {l : List StreamOp} (hop : ∀ p, op ≠ .irecv p ∧ op ≠ .isend p)
    (hw : Waits (pp.job.comm r).mp k.comm.sys.w c.sys.w) (hreqs : c.reqs = k.comm.reqs)
    (hready : c.ready = op.readies k.comm.ready) (hstream : (c.sys.w.streams 0).todo = k.ops ++ l)
    (hops : List.Forall₂ (Matches pp r (rankAfter pp r k op none ps c) k.pos.round) (op.acts pp.job.size r) l)
    (hrecvs : StoredFor pp r c k.pos.round .recv k.recvq (opened AsyncOp.recvPeer .waitRecvs (k.pos.did ++ [op]))
      (rankAfter pp r k op none ps c).recvs)
    (hsends : StoredFor pp r c k.pos.round .send k.sendq (opened AsyncOp.sendPeer .waitSends (k.pos.did ++ [op]))
      (rankAfter pp r k op none ps c).sends) :
    Returned pp r k op none c (rankAfter pp r k op none ps c) := by
  have hsub : entries k.comm.reqs ⊆ entries c.reqs := by
    rw [hreqs]
    exact List.Subset.refl _
  constructor
  case rank => exact (h.rank.waits hw hreqs).mono (Nat.le_succ _)
  case room =>
    rw [hreqs]
    exact Nat.le_succ _
  case inUse => exact h.inUse.waits hw hreqs
  case entries => exact hsub
  case same =>
    intro q _
    rcases hw.mem q with hq | ⟨-, st, hq⟩ <;> rw [hq] <;> exact ⟨rfl, rfl⟩
  case ids =>
    intro d
    rw [hw.clients]
  case newId => exact fun p i hop' => absurd hop' (by have := hop p; tauto)
  case ready => exact hready
  case ops => exact ⟨l, hstream, hops⟩
  case recvs =>
    cases op with
    | irecv p => exact absurd rfl (hop p).1
    | _ => exact hrecvs
  case sends =>
    cases op with
    | isend p => exact absurd rfl (hop p).2
    | _ => exact hsends

theorem waitReady_comes_back (htodo : k.pos.todo = .waitReady p :: rest) (ht : Succeeds tape) :
    ComesBack pp r k (.waitReady p) tape := by
  have hpeer := peer_of_mem (h.pos.head_mem htodo) (p := p) (by tauto)
  have hrank : p < (pp.job.comm r).commSize := hpeer.1
  obtain ⟨tape', -, hrun⟩ := commWaitReadyOnStream_runs (c := k.comm.given tape []) hrank 0 ht
  refine ⟨none, _, Prog.bind_ok hrun _, fun ps => ?_⟩
  have hvalue : k.comm.ready.readyValues p = (1 + k.pos.round) % 2 ^ 32 := by
    rw [h.expected p, h.called_head htodo]
  refine returned_of_waits h (l := [.wait (.user (pp.job.tableAt r + 4 * p)) ((1 + k.pos.round) % 2 ^ 32) .geq])
    (fun q => by simp) (waits_user k.comm.sys.w 0 _ _ _) rfl rfl ?_ (.cons .ready .nil) ?_ ?_
  · show ((k.comm.sys.w.enqueue 0 [.wait _ (k.comm.ready.readyValues p) .geq]).streams 0).todo = _
    rw [World.enqueue_streams, if_pos rfl, hvalue]
    rfl
  · rw [opened_other _ (by simp) rfl]
    exact h.recvs.keep (List.Subset.refl _) (fun _ _ _ => ⟨rfl, rfl, rfl, rfl, rfl, rfl⟩) fun _ => List.prefix_rfl
  · rw [opened_other _ (by simp) rfl]
    exact h.sends.keep (List.Subset.refl _) (fun _ _ _ => ⟨rfl, rfl, rfl, rfl, rfl, rfl⟩) fun _ => List.prefix_rfl

omit h in
/-- The requests that a wait does not name stay stored. -/
theorem StoredFor.waited {ty type : ReqType} {queue queue' : Nat → List Nat} {l l' : List Nat} {qs rs : List Ptr}
    {j : Nat} {c' : Comm} {st : Stream} (hs : StoredFor pp r c j type queue l qs)
    (hrs : StoredFor pp r c j ty queue' l' rs) (hne : type ≠ ty) (hreqs : c'.reqs = c.reqs)
    (hw : WaitedOn (pp.job.comm r).mp c.sys.w c'.sys.w rs st) : StoredFor pp r c' j type queue l qs := by
  refine hs.keep ?_ (fun q hq _ => ?_) fun _ => List.prefix_rfl
  · rw [hreqs]
    exact List.Subset.refl _
  · have hnot : q ∉ rs := by
      intro hin
      obtain ⟨_, -, hthis⟩ := hs.exists_peer hq
      obtain ⟨_, -, hother⟩ := hrs.exists_peer hin
      exact hne (hthis.type_eq.symm.trans hother.type_eq)
    rw [hw.mem q, if_neg hnot]
    exact ⟨rfl, rfl, rfl, rfl, rfl, rfl⟩

omit h in
/-- The wait infos of stored requests, by peer. -/
theorem StoredFor.infos {type : ReqType} {queue : Nat → List Nat} {l : List Nat} {qs : List Ptr} {j : Nat}
    (hs : StoredFor pp r c j type queue l qs) {R : Nat → StreamOp → Prop}
    (hR : ∀ p i n o, (pp.job.comm r).mp.clientIndex p = some i → (queue p)[j]? = some o →
      R p (.waitCq (some ⟨n, i, type.flow, o⟩))) :
    List.Forall₂ R l (qs.map fun q => .waitCq (c.sys.w.mem q).gdsWaitInfo) := by
  refine List.forall₂_map_right_iff.mpr (hs.imp fun p q hq => ?_)
  obtain ⟨n, i, hinfo, hi⟩ := hq.own
  rw [hq.peer_eq] at hi
  rw [hinfo, hq.type_eq]
  exact hR p i n _ hi hq.queued

omit h in
/-- Stored requests can be waited for. -/
theorem StoredFor.runs {type : ReqType} {queue : Nat → List Nat} {qs : List Ptr} {j : Nat}
    (hs : StoredFor pp r k.comm j type queue (commPeers pp.job.size r) qs) (hty : type = .recv ∨ type = .send)
    (ht : Succeeds tape) : (∀ q ∈ qs, Unwaited k.comm.sys.w q) ∧
      ∃ y, commWaitAllOnStream (pp.job.comm r) qs 0 (k.comm.given tape []) =
        (.ok 0, { k.comm.given tape [] with sys := y }) ∧ WaitedOn (pp.job.comm r).mp k.comm.sys.w y.w qs 0 := by
  have he : (pp.job.comm r).mp.useEventSync = false := pp.noEventSync r
  have hunwaited : ∀ q ∈ qs, Unwaited k.comm.sys.w q := by
    intro q hq
    obtain ⟨p, -, hstored⟩ := hs.exists_peer hq
    exact hstored.unwaited hty
  have hclient : ∀ q ∈ qs, ∃ i, (pp.job.comm r).mp.clientIndex (k.comm.sys.w.mem q).peer = some i := by
    intro q hq
    obtain ⟨p, -, hstored⟩ := hs.exists_peer hq
    obtain ⟨-, i, -, hi⟩ := hstored.own
    exact ⟨i, hi⟩
  refine ⟨hunwaited, ?_⟩
  exact commWaitAllOnStream_runs (c := k.comm.given tape []) he ht (hs.nodup (commPeers_nodup ..)) hunwaited hclient 0

theorem waitRecvs_comes_back (htodo : k.pos.todo = .waitRecvs :: rest) (ht : Succeeds tape) :
    ComesBack pp r k .waitRecvs tape := by
  obtain ⟨hdid, -⟩ := h.pos.did_eq (body_nodup pp r) htodo (l := asyncPosts pp.job.size r) rfl
  -- all receives of this iteration are stored
  have hrecvs : StoredFor pp r k.comm k.pos.round .recv k.recvq (commPeers pp.job.size r) k.recvs := by
    have hstored := h.recvs
    rwa [hdid, opened_eq (by simp [mem_asyncPosts]), asyncPosts_recvPeers] at hstored
  obtain ⟨hunwaited, y, hrun, hw⟩ := hrecvs.runs (.inl rfl) ht
  refine ⟨none, _, Prog.bind_ok hrun _, fun ps => ?_⟩
  refine returned_of_waits h (fun q => by simp) (hw.waits hunwaited) rfl rfl hw.stream ?_ ?_ ?_
  · exact List.forall₂_map_left_iff.mpr (hrecvs.infos fun p i n o hi ho => .recvDone hi ho)
  · rw [opened_concat, if_pos rfl]
    exact .nil
  · rw [opened_other _ (by simp) rfl]
    exact h.sends.waited hrecvs (by decide) rfl hw

theorem waitSends_comes_back (htodo : k.pos.todo = .waitSends :: rest) (ht : Succeeds tape) :
    ComesBack pp r k .waitSends tape := by
  have hbody : body pp r = asyncPosts pp.job.size r ++ [.waitRecvs] ++ .waitSends :: [.progress] := by
    simp [body, asyncExchange]
  obtain ⟨hdid, -⟩ := h.pos.did_eq (body_nodup pp r) htodo hbody
  have hsends : StoredFor pp r k.comm k.pos.round .send k.sendq (commPeers pp.job.size r) k.sends := by
    have hstored := h.sends
    rwa [hdid, opened_other _ (by simp) rfl, opened_eq (by simp [mem_asyncPosts]), asyncPosts_sendPeers] at hstored
  obtain ⟨hunwaited, y, hrun, hw⟩ := hsends.runs (.inr rfl) ht
  refine ⟨none, _, Prog.bind_ok hrun _, fun ps => ?_⟩
  refine returned_of_waits h (fun q => by simp) (hw.waits hunwaited) rfl rfl hw.stream ?_ ?_ ?_
  · exact List.forall₂_map_left_iff.mpr (hsends.infos fun p i n o hi ho => .sendDone hi ho)
  · rw [opened_other _ (by simp) rfl]
    exact h.recvs.waited hsends (by decide) rfl hw
  · rw [opened_concat, if_pos rfl]
    exact .nil

end Waits

/-! ## Progress, and any call -/

section Any
variable (h : Lane pp r k)
include h

/-- At the end of an iteration no request is stored. -/
theorem stored_of_progress (htodo : k.pos.todo = .progress :: rest) : k.recvs = [] ∧ k.sends = [] := by
  have hbody : body pp r = asyncPosts pp.job.size r ++ [.waitRecvs] ++ [.waitSends] ++ .progress :: [] := by
    simp [body, asyncExchange]
  obtain ⟨hdid, -⟩ := h.pos.did_eq (body_nodup pp r) htodo hbody
  have hrecvs := h.recvs
  have hsends := h.sends
  rw [hdid] at hrecvs hsends
  rw [opened_other _ (by simp) rfl, opened_concat, if_pos rfl] at hrecvs
  rw [opened_concat, if_pos rfl] at hsends
  exact ⟨List.forall₂_nil_left_iff.mp hrecvs, List.forall₂_nil_left_iff.mp hsends⟩

/-- What progress leaves, whatever it has found. -/
theorem returned_of_progress (htodo : k.pos.todo = .progress :: rest) (hstill : Still tape)
    (hrun : call pp r k .progress (k.comm.given tape []) = (.ok x, c)) :
    Returned pp r k .progress x c (rankAfter pp r k .progress x ps c) := by
  have he : (pp.job.comm r).mp.useEventSync = false := pp.noEventSync r
  obtain ⟨ret, c', h₁, h₂⟩ := Prog.bind_eq_ok hrun
  cases h₂
  obtain ⟨hm, hreqs⟩ := commProgress_did h₁
  obtain ⟨hstreams, hready⟩ := commProgress_still he hstill h₁
  have hdid : Did (pp.job.comm r).mp .progress k.comm c := .progressed rfl rfl hm hreqs
  have hsub : entries k.comm.reqs ⊆ entries c.reqs := by
    rw [hreqs]
    exact List.Subset.refl _
  obtain ⟨hrecvs, hsends⟩ := stored_of_progress h htodo
  have hnone : ∀ type queue f wait, f .progress = none → .progress ≠ wait →
      StoredFor pp r k.comm k.pos.round type queue (opened f wait k.pos.did) [] →
      StoredFor pp r c k.pos.round type queue (opened f wait (k.pos.did ++ [.progress])) [] := by
    intro type queue f wait hf hwait hs
    rw [opened_other _ hwait hf, List.forall₂_nil_right_iff.mp hs]
    exact .nil
  constructor
  case rank => exact h.rank.step he rfl hdid fun d => (progress_lastReqId hm d).le.trans (Nat.le_succ _)
  case room =>
    rw [hreqs]
    exact Nat.le_succ _
  case inUse =>
    obtain ⟨leaked, hlen, hin⟩ := h.inUse.step he h.rank.table rfl hdid
    obtain rfl := List.length_eq_zero_iff.mp hlen
    exact hin
  case entries => exact hsub
  case same => exact fun q _ => progress_same he hm q
  case ids => exact fun d => (progress_lastReqId hm d).ge
  case newId => exact fun p i hop => by simp at hop
  case ready => exact hready
  case ops =>
    refine ⟨[], ?_, .nil⟩
    rw [hstreams]
    exact (List.append_nil _).symm
  case recvs =>
    have hs := h.recvs
    show StoredFor pp r c k.pos.round .recv k.recvq _ k.recvs
    rw [hrecvs] at hs ⊢
    exact hnone _ _ _ _ rfl (by decide) hs
  case sends =>
    have hs := h.sends
    show StoredFor pp r c k.pos.round .send k.sendq _ k.sends
    rw [hsends] at hs ⊢
    exact hnone _ _ _ _ rfl (by decide) hs

variable (hr : r < pp.job.size) (hround : k.pos.round < pp.totIters) (htodo : k.pos.todo = op :: rest)
include hr hround htodo

/-- A call that is not `comm_progress` comes back in one way only. -/
theorem comes_back (hop : op ≠ .progress) (ht : Succeeds tape) : ComesBack pp r k op tape := by
  cases op with
  | irecv p => exact irecv_comes_back h hround htodo ht
  | sendReady p => exact sendReady_comes_back h hround hr htodo ht
  | waitReady p => exact waitReady_comes_back h htodo ht
  | isend p => exact isend_comes_back h hround htodo ht
  | waitRecvs => exact waitRecvs_comes_back h htodo ht
  | waitSends => exact waitSends_comes_back h htodo ht
  | progress => exact absurd rfl hop

/-- What a call has left that came back. -/
theorem returned (ht : Succeeds tape) (hstill : Still tape)
    (hrun : call pp r k op (k.comm.given tape []) = (.ok x, c)) :
    Returned pp r k op x c (rankAfter pp r k op x ps c) := by
  by_cases hop : op = .progress
  · subst hop
    exact returned_of_progress h htodo hstill hrun
  · obtain ⟨x', c', hrun', hret⟩ := comes_back h hr hround htodo hop ht
    rw [hrun] at hrun'
    cases hrun'
    exact hret ps

end Any

end Asyncpong

end LibMp
