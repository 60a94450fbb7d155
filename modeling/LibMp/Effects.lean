import LibMp.CoreSteps

/- What a step of the request machine does, component by component: to a
   request (`step_req`), to the log (`step_log`), to the completion queues, the
   counters of the clients and the streams. Invariants of runs are proved from
   these, not from the definitions of the updates. -/
namespace LibMp
variable {cfg : Config} {Good : Ans → Prop}

/-- The two requests differ in links, work request, infos and flags at most. -/
def Request.SameState (r r' : Request) : Prop :=
  r'.type = r.type ∧ r'.peer = r.peer ∧ r'.id = r.id ∧ r'.status = r.status ∧ r'.owner = r.owner ∧
    r'.trigger = r.trigger

/-- They differ in the status too. -/
def Request.SameUpToStatus (r r' : Request) : Prop :=
  r'.type = r.type ∧ r'.peer = r.peer ∧ r'.id = r.id ∧ r'.owner = r.owner ∧ r'.trigger = r.trigger

theorem Request.SameState.refl (r : Request) : r.SameState r := ⟨rfl, rfl, rfl, rfl, rfl, rfl⟩

/-- An update of one request that keeps its state. -/
theorem Request.SameState.setReq {w : World} {p : Ptr} {g : Request → Request}
    (hg : (w.mem p).SameState (g (w.mem p))) (q : Ptr) : (w.mem q).SameState ((w.setReq p g).mem q) :=
  w.setReq_rel .refl hg q

/-- What a step does to the request at `q`. -/
inductive ReqStep (cfg : Config) (a b : Mach) (q : Ptr) : Lbl → Prop where
  | same {l : Lbl} : (a.w.mem q).SameState (b.w.mem q) → ReqStep cfg a b q l
  | take (fn : Fn) (c : Nat) : q = a.w.nextFree → cfg.clientIndex (b.w.mem q).peer = some c →
      (b.w.mem q).id = (a.w.clients c).lastReqId + 1 → (b.w.mem q).owner = some fn →
      (b.w.mem q).trigger = false → (b.w.mem q).status = .prepared ∨ (b.w.mem q).status.isPending →
      ReqStep cfg a b q (.take fn c)
  | release : (a.w.mem q).status = .complete → (b.w.mem q).owner = none → (b.w.mem q).status = .undef →
      ReqStep cfg a b q (.release q)
  | reap {c f k wr} : (a.w.cq c f)[k]? = some wr → wr.wrId = q → (a.w.mem q).SameUpToStatus (b.w.mem q) →
      (a.w.mem q).status.isPending → (b.w.mem q).status = .complete → ReqStep cfg a b q (.reap c f k)
  | handOver {c f} : (a.w.mem q).SameUpToStatus (b.w.mem q) → (a.w.mem q).status = .prepared →
      (b.w.mem q).status = .pending → ReqStep cfg a b q (.handOver c f q)
  | waitCpu : (a.w.mem q).SameUpToStatus (b.w.mem q) → (a.w.mem q).status = .pendingNowait →
      (b.w.mem q).status = .pending → ReqStep cfg a b q (.waitCpu q)
  | waitStream : (a.w.mem q).SameUpToStatus (b.w.mem q) →
      (a.w.mem q).status = .pendingNowait ∨ (a.w.mem q).status = .complete →
      (b.w.mem q).status = .pending → ReqStep cfg a b q (.waitStream q)
  | arm {c f} : (b.w.mem q) = { a.w.mem q with trigger := true } → ReqStep cfg a b q (.arm c f q)
  | armTail {c} : (b.w.mem q) = { a.w.mem q with trigger := true } → ReqStep cfg a b q (.armTail c q)

/-- A step of a stream changes no request. -/
theorem World.gpuStep_mem (w : World) (s : Stream) : (w.gpuStep s).mem = w.mem := by
  unfold World.gpuStep
  split
  · rfl
  · rename_i op rest hq
    split
    · cases op with
      | write word v => cases word <;> rfl
      | _ => rfl
    · rfl

/-- The request a call takes is free. -/
theorem nextFree_free {w : World} (h : CoreInv cfg ⟨w, none⟩) :
    (w.mem w.nextFree).owner = none ∧ (w.mem w.nextFree).status = .undef := by
  obtain ⟨fl, pl, h⟩ := h
  obtain ⟨fl', hr⟩ := h.refill
  obtain ⟨n, hn⟩ := w.refill_mem w.nextFree
  have ho : (w.refill.mem w.nextFree).owner = none := by
    by_contra hne
    exact ((hr.owner _).mp hne).2 List.mem_cons_self
  rw [hn] at ho
  exact ⟨ho, h.free_status _ ho⟩

/-- The request a call has taken. -/
theorem step_taken {fn : Fn} {c : Nat} {a b : Mach} (hs : Step cfg Good (.take fn c) a b) :
    cfg.clientIndex (b.w.mem a.w.nextFree).peer = some c ∧
    (b.w.mem a.w.nextFree).id = (a.w.clients c).lastReqId + 1 ∧ (b.w.mem a.w.nextFree).owner = some fn ∧
    (b.w.mem a.w.nextFree).trigger = false ∧
    ((b.w.mem a.w.nextFree).status = .prepared ∨ (b.w.mem a.w.nextFree).status.isPending) := by
  cases hs with
  | take _ _ type st hc hty hfl hst hfn =>
    refine ⟨?_, ?_, ?_, ?_, ?_⟩ <;> simp only [World.take, World.setReq_mem, if_true]
    · exact hc
    · exact hst

/-- Every request the step does not name keeps its state. -/
theorem step_req {l : Lbl} {a b : Mach} (hs : Step cfg Good l a b) (q : Ptr) : ReqStep cfg a b q l := by
  have hs' := hs
  cases hs with
  | @take w fn c type st hc hty hfl hst hfn =>
    -- a new region changes the links of the others
    by_cases hq : q = w.nextFree
    · obtain ⟨h1, h2, h3, h4, h5⟩ := step_taken hs'
      exact .take fn c hq (by rw [hq]; exact h1) (by rw [hq]; exact h2) (by rw [hq]; exact h3)
        (by rw [hq]; exact h4) (by rw [hq]; exact h5)
    · refine .same ?_
      obtain ⟨n, hn⟩ := w.refill_mem q
      rw [w.take_other fn c (cfg.mpiRank c) type st hq, hn]
      exact ⟨rfl, rfl, rfl, rfl, rfl, rfl⟩
  | @build w st bt p g hg hok =>
    obtain ⟨h1, h2, h3, h4, h5, -, -, h8, -⟩ := hg
    exact .same (.setReq ⟨h1, h2, h5, h3, h8, h4⟩ q)
  | accept => exact .same (.refl _)
  | fill =>
    refine .same ?_
    dsimp only [World.fillWait]
    exact .setReq ⟨rfl, rfl, rfl, rfl, rfl, rfl⟩ q
  | @reap w cur c f k wr ans hk hp _ _ _ =>
    by_cases hq : q = wr.wrId
    · subst hq
      refine .reap hk rfl ?_ hp ?_
      · simp only [World.complete_mem cfg hp, if_true]; exact ⟨rfl, rfl, rfl, rfl, rfl⟩
      · simp only [World.complete_mem cfg hp, if_true]
    · refine .same ?_
      simp only [World.complete_mem cfg hp, if_neg hq]
      exact .refl _
  | @handOver w cur c f p he hp hid hst =>
    -- delinking changes the links of the neighbour too
    obtain ⟨n, v, hm⟩ := World.handOver_mem w c f p q
    by_cases hq : q = p
    · subst hq
      rw [if_pos rfl] at hm
      refine .handOver ?_ hst ?_
      · rw [hm]; exact ⟨rfl, rfl, rfl, rfl, rfl⟩
      · rw [hm]
    · rw [if_neg hq] at hm
      refine .same ?_
      rw [hm]
      exact ⟨rfl, rfl, rfl, rfl, rfl, rfl⟩
  | @gpu w cur s =>
    refine .same ?_
    rw [World.gpuStep_mem]
    exact .refl _
  | store => exact .same (.refl _)
  | stamp => exact .same (.refl _)
  | @track w c p s =>
    refine .same ?_
    obtain ⟨n, v, hq⟩ := World.append_links (w := w) (c := c) (f := .tx) (p := p) q
    rw [World.addLog_mem, hq]
    exact ⟨rfl, rfl, rfl, rfl, rfl, rfl⟩
  | @arm w cur c f p =>
    by_cases hq : q = p
    · subst hq
      refine .arm ?_
      simp [World.arm]
    · refine .same ?_
      simp only [World.arm, World.setClient_mem, World.setReq_mem, if_neg hq]
      exact .refl _
  | @armTail w cur c p =>
    by_cases hq : q = p
    · subst hq
      refine .armTail ?_
      simp [World.arm]
    · refine .same ?_
      simp only [World.arm, World.setClient_mem, World.setReq_mem, if_neg hq]
      exact .refl _
  | enqueue => exact .same (.refl _)
  | @waitCpu w p hp =>
    by_cases hq : q = p
    · subst hq
      refine .waitCpu ?_ hp ?_
      · simp only [World.setReq_mem, if_true]; exact ⟨rfl, rfl, rfl, rfl, rfl⟩
      · simp only [World.setReq_mem, if_true]
    · refine .same ?_
      simp only [World.setReq_mem, if_neg hq]
      exact .refl _
  | @waitStream w p s _ hp =>
    by_cases hq : q = p
    · subst hq
      refine .waitStream ?_ hp ?_
      · simp only [World.setReq_mem, if_true]; exact ⟨rfl, rfl, rfl, rfl, rfl⟩
      · simp only [World.setReq_mem, if_true]
    · refine .same ?_
      simp only [World.setReq_mem, if_neg hq]
      exact .refl _
  | give => exact .same (.refl _)
  | touch s =>
    refine .same ?_
    dsimp only
    exact .setReq ⟨rfl, rfl, rfl, rfl, rfl, rfl⟩ q
  | push => exact .same (.refl _)
  | note => exact .same (.refl _)
  | @release w p hp =>
    by_cases hq : q = p
    · subst hq
      refine .release hp ?_ ?_ <;> simp [World.release]
    · refine .same ?_
      simp only [World.release, World.setReq_mem, if_neg hq]
      exact .refl _
  | leave => exact .same (.refl _)

/-! ## The log -/

/-- What a step from `a` adds to the log. -/
def Lbl.log (a : Mach) : Lbl → List LogEv
  | .accept c f p => [.accepted c f p (a.w.mem p).id]
  | .reap c f k =>
    match (a.w.cq c f)[k]? with
    | some wr => [.polled c f wr.wrId (a.w.mem wr.wrId).id]
    | none => []
  | .handOver c f p => [.accepted c .tx p (a.w.mem p).id,
      .handed c p (a.w.mem p).id ((a.w.clients c).lastTriggerId f)]
  | .gpu s =>
    match (a.w.streams s).todo with
    | op :: _ => if a.w.ready op then [.ran s (a.w.streams s).done op] else []
    | [] => []
  | .track c p s => [.tracked c p (a.w.mem p).id s]
  | .give p => [.given p (a.w.mem p).id (a.w.mem p).gdsWaitInfo]
  | .note c f p s => [.waited c f p (a.w.mem p).id s (a.w.streams s).count]
  | .release p => [.released p (a.w.mem p).peer (a.w.mem p).id]
  | _ => []

/-- A stream logs the operation it executes. -/
theorem mem_log_gpu {a : Mach} {s : Stream} {e : LogEv} (h : e ∈ (Lbl.gpu s).log a) :
    ∃ op rest, (a.w.streams s).todo = op :: rest ∧ a.w.ready op = true ∧ e = .ran s (a.w.streams s).done op := by
  simp only [Lbl.log] at h
  split at h
  · rename_i op rest hq
    split at h
    · rename_i hr
      exact ⟨op, rest, hq, hr, List.mem_singleton.mp h⟩
    · cases h
  · cases h

/-- The progress loop logs the completion it polls. -/
theorem mem_log_reap {a : Mach} {c k : Nat} {f : Flow} {e : LogEv} (h : e ∈ (Lbl.reap c f k).log a) :
    ∃ wr : Wr, (a.w.cq c f)[k]? = some wr ∧ e = .polled c f wr.wrId (a.w.mem wr.wrId).id := by
  simp only [Lbl.log] at h
  split at h
  · rename_i wr hk
    exact ⟨wr, hk, List.mem_singleton.mp h⟩
  · cases h

theorem World.gpuStep_log (w : World) (s : Stream) :
    (w.gpuStep s).log = w.log ++ match (w.streams s).todo with
      | op :: _ => if w.ready op then [.ran s (w.streams s).done op] else []
      | [] => [] := by
  unfold World.gpuStep
  split
  · rename_i hq; rw [hq]; simp
  · rename_i op rest hq
    rw [hq]
    dsimp only
    split
    · rw [World.addLog_log]
      cases op with
      | write word v => cases word <;> rfl
      | _ => rfl
    · simp

theorem World.append_log (w : World) (c : Nat) (f : Flow) (p : Ptr) : (w.append c f p).log = w.log := by
  unfold World.append
  split
  · rfl
  · split <;> rfl

theorem World.append_cq (w : World) (c : Nat) (f : Flow) (p : Ptr) : (w.append c f p).cq = w.cq := by
  unfold World.append
  split
  · rfl
  · split <;> rfl

theorem World.append_streams (w : World) (c : Nat) (f : Flow) (p : Ptr) : (w.append c f p).streams = w.streams := by
  unfold World.append
  split
  · rfl
  · split <;> rfl

theorem step_log {l : Lbl} {a b : Mach} (hs : Step cfg Good l a b) : b.w.log = a.w.log ++ l.log a := by
  cases hs with
  | accept => rfl
  | @reap w cur c f k wr ans hk hp _ _ _ =>
    simp only [Lbl.log, hk]
    exact (World.complete_rest cfg w c f k wr).2.2.2.2
  | @handOver w cur c f p => exact (World.handOver_rest w c f p).2.2.2
  | @gpu w cur s => exact World.gpuStep_log w s
  | @track w c p s =>
    rw [World.addLog_log, World.append_log]
    rfl
  | @take w fn c type st =>
    simp only [Lbl.log, List.append_nil]
    show w.refill.log = w.log
    unfold World.refill
    split <;> rfl
  | give | note | release => rfl
  | _ => exact (List.append_nil _).symm

/-! ## The clients, the completion queues and the streams -/

/-- What a step makes of a client, its posted list apart. -/
def Lbl.client (cfg : Config) (a : Mach) (d : Nat) : Lbl → Client
  | .take _ c => if d = c then { a.w.clients d with lastReqId := (a.w.clients d).lastReqId + 1 } else a.w.clients d
  | .stamp c p => (a.w.stamp c .tx p).clients d
  | .arm c f p => (a.w.arm c f p).clients d
  | .armTail c p => (a.w.arm c .tx p).clients d
  | .reap c f k =>
    match (a.w.cq c f)[k]? with
    | some wr => (a.w.complete cfg c f k wr).clients d
    | none => a.w.clients d
  | .gpu s => (a.w.gpuStep s).clients d
  | .store c v => (a.w.setWord v (.lastTriggerId c .tx)).clients d
  | _ => a.w.clients d

theorem step_client {l : Lbl} {a b : Mach} (hs : Step cfg Good l a b) (d : Nat) :
    ∃ h t, b.w.clients d = { l.client cfg a d with postedStreamReq := h, lastPostedStreamReq := t } := by
  cases hs with
  | @take w fn c type st =>
    simp only [Lbl.client, World.take_clients]
    split
    · rename_i hd; rw [hd]; exact ⟨_, _, rfl⟩
    · exact ⟨_, _, rfl⟩
  | reap hk =>
    simp only [Lbl.client, hk]
    exact ⟨_, _, rfl⟩
  | @handOver w cur c f p =>
    obtain ⟨h, t, hd⟩ := World.handOver_clients w c f p d
    exact ⟨h, t, hd⟩
  | @track w c p s =>
    obtain ⟨h, t, hd⟩ := World.append_heads (w := w) (c := c) (f := .tx) (p := p) d
    exact ⟨h, t, hd⟩
  | _ => exact ⟨_, _, rfl⟩

/-- A step of a stream: nothing, or its next operation. -/
theorem World.gpuStep_cases (w : World) (s : Stream) :
    w.gpuStep s = w ∨ ∃ op rest, (w.streams s).todo = op :: rest ∧ w.ready op = true ∧
      w.gpuStep s = ((w.shift s).effect op).addLog (.ran s (w.streams s).done op) := by
  unfold World.gpuStep
  split
  · exact .inl rfl
  · rename_i op rest hq
    split
    · rename_i hr
      exact .inr ⟨op, rest, hq, hr, rfl⟩
    · exact .inl rfl

theorem World.setWord_clients (w : World) (v : Nat) (word : Word) (d : Nat) :
    ∃ x y, (w.setWord v word).clients d = { w.clients d with lastTriggerId := x, lastTrackedId := y } := by
  cases word with
  | lastTriggerId c f =>
    rw [World.setWord]
    refine w.setClient_rel (R := fun a b => ∃ x y, b = { a with lastTriggerId := x, lastTrackedId := y })
      (fun _ => ⟨_, _, rfl⟩) ?_ d
    exact ⟨_, _, rfl⟩
  | lastTrackedId c f =>
    rw [World.setWord]
    refine w.setClient_rel (R := fun a b => ∃ x y, b = { a with lastTriggerId := x, lastTrackedId := y })
      (fun _ => ⟨_, _, rfl⟩) ?_ d
    exact ⟨_, _, rfl⟩
  | user addr => exact ⟨_, _, rfl⟩

theorem World.gpuStep_clients (w : World) (s : Stream) (d : Nat) :
    ∃ x y, (w.gpuStep s).clients d = { w.clients d with lastTriggerId := x, lastTrackedId := y } := by
  rcases w.gpuStep_cases s with hw | ⟨op, rest, -, -, hw⟩
  · rw [hw]; exact ⟨_, _, rfl⟩
  · rw [hw]
    cases op with
    | write word v => exact World.setWord_clients (w.shift s) v word d
    | _ => exact ⟨_, _, rfl⟩

theorem World.stamp_clients (w : World) (c : Nat) (f : Flow) (p : Ptr) (d : Nat) :
    ∃ x, (w.stamp c f p).clients d = { w.clients d with lastPostedTriggerId := x } := by
  rw [World.stamp]
  refine w.setClient_rel (R := fun a b => ∃ x, b = { a with lastPostedTriggerId := x }) (fun _ => ⟨_, rfl⟩) ?_ d
  exact ⟨_, rfl⟩

theorem World.arm_clients (w : World) (c : Nat) (f : Flow) (p : Ptr) (d : Nat) :
    ∃ x, (w.arm c f p).clients d = { w.clients d with lastPostedTrackedId := x } := by
  rw [World.arm]
  refine (w.setReq p _).setClient_rel (R := fun a b => ∃ x, b = { a with lastPostedTrackedId := x })
    (fun _ => ⟨_, rfl⟩) ?_ d
  exact ⟨_, rfl⟩

theorem Lbl.client_reap (a : Mach) (d c : Nat) (f : Flow) (k : Nat) : ∃ x y,
    (Lbl.reap c f k).client cfg a d = { a.w.clients d with lastDoneId := x, lastTrackedId := y } := by
  simp only [Lbl.client]
  split
  · rw [World.complete_clients]
    split
    · rename_i hd
      rw [hd]
      exact ⟨_, _, rfl⟩
    · exact ⟨_, _, rfl⟩
  · exact ⟨_, _, rfl⟩

/-- Request ids are handed out by the calls that take a request. -/
theorem step_lastReqId {l : Lbl} {a b : Mach} : Step cfg Good l a b → ∀ d,
    (b.w.clients d).lastReqId = match l with
      | .take _ c => if d = c then (a.w.clients d).lastReqId + 1 else (a.w.clients d).lastReqId
      | _ => (a.w.clients d).lastReqId := by
  intro hs d
  obtain ⟨h, t, hb⟩ := step_client hs d
  rw [hb]
  cases l with
  | take fn c => simp only [Lbl.client]; split <;> rfl
  | stamp c p =>
    obtain ⟨x, hx⟩ := a.w.stamp_clients c .tx p d
    rw [Lbl.client, hx]
  | arm c f p => exact (SameCore.arm a.w c f p).reqId d
  | armTail c p => exact (SameCore.arm a.w c .tx p).reqId d
  | reap c f k =>
    obtain ⟨x, y, hx⟩ := Lbl.client_reap a d c f k
    rw [hx]
  | gpu s => exact (SameCore.gpuStep a.w s).reqId d
  | store c v => exact (SameCore.setWord a.w v (.lastTriggerId c .tx)).reqId d
  | _ => rfl

theorem step_lastReqId_le {l : Lbl} {a b : Mach} (hs : Step cfg Good l a b) (d : Nat) :
    (a.w.clients d).lastReqId ≤ (b.w.clients d).lastReqId := by
  rw [step_lastReqId hs d]
  split
  · split <;> omega
  · exact le_rfl

/-- The waited lists stay empty: no call ever puts a request there. -/
theorem step_waitedStreamReq {l : Lbl} {a b : Mach} (hs : Step cfg Good l a b) (d : Nat) :
    (b.w.clients d).waitedStreamReq = (a.w.clients d).waitedStreamReq := by
  obtain ⟨h, t, hb⟩ := step_client hs d
  rw [hb]
  cases l with
  | take fn c => simp only [Lbl.client]; split <;> rfl
  | stamp c p =>
    obtain ⟨x, hx⟩ := a.w.stamp_clients c .tx p d
    rw [Lbl.client, hx]
  | arm c f p =>
    obtain ⟨x, hx⟩ := a.w.arm_clients c f p d
    rw [Lbl.client, hx]
  | armTail c p =>
    obtain ⟨x, hx⟩ := a.w.arm_clients c .tx p d
    rw [Lbl.client, hx]
  | reap c f k =>
    obtain ⟨x, y, hx⟩ := Lbl.client_reap a d c f k
    rw [hx]
  | gpu s =>
    obtain ⟨x, y, hx⟩ := a.w.gpuStep_clients s d
    simp only [Lbl.client, hx]
  | store c v =>
    obtain ⟨x, y, hx⟩ := a.w.setWord_clients v (.lastTriggerId c .tx) d
    simp only [Lbl.client, hx]
  | _ => rfl

/-- `last_posted_trigger_id` is the id of the last request stamped. -/
theorem step_lastPostedTriggerId {l : Lbl} {a b : Mach} : Step cfg Good l a b → ∀ d,
    (b.w.clients d).lastPostedTriggerId .tx = match l with
      | .stamp c p => if d = c then (a.w.mem p).id else (a.w.clients d).lastPostedTriggerId .tx
      | _ => (a.w.clients d).lastPostedTriggerId .tx := by
  intro hs d
  obtain ⟨h, t, hb⟩ := step_client hs d
  rw [hb]
  cases l with
  | take fn c => simp only [Lbl.client]; split <;> rfl
  | stamp c p => simp only [Lbl.client, World.stamp, World.setClient_clients]; split <;> simp_all
  | arm c f p => exact congrFun ((SameCore.arm a.w c f p).trigger d) .tx
  | armTail c p => exact congrFun ((SameCore.arm a.w c .tx p).trigger d) .tx
  | reap c f k =>
    obtain ⟨x, y, hx⟩ := Lbl.client_reap a d c f k
    rw [hx]
  | gpu s => exact congrFun ((SameCore.gpuStep a.w s).trigger d) .tx
  | store c v => exact congrFun ((SameCore.setWord a.w v (.lastTriggerId c .tx)).trigger d) .tx
  | _ => rfl

/-- `last_posted_tracked_id` is the id of the last request armed. -/
theorem step_lastPostedTrackedId {l : Lbl} {a b : Mach} : Step cfg Good l a b → ∀ d g,
    (b.w.clients d).lastPostedTrackedId g = match l with
      | .arm c f p => if d = c ∧ g = f then (a.w.mem p).id else (a.w.clients d).lastPostedTrackedId g
      | .armTail c p => if d = c ∧ g = .tx then (a.w.mem p).id else (a.w.clients d).lastPostedTrackedId g
      | _ => (a.w.clients d).lastPostedTrackedId g := by
  intro hs d g
  have harm : ∀ c f p, ((a.w.arm c f p).clients d).lastPostedTrackedId g =
      if d = c ∧ g = f then (a.w.mem p).id else (a.w.clients d).lastPostedTrackedId g := by
    intro c f p
    simp only [World.arm, World.setClient_clients, World.setReq_clients]
    by_cases hd : d = c
    · simp [hd, Function.update_apply]
    · simp [hd]
  obtain ⟨h, t, hb⟩ := step_client hs d
  rw [hb]
  cases l with
  | take fn c => simp only [Lbl.client]; split <;> rfl
  | stamp c p =>
    obtain ⟨x, hx⟩ := a.w.stamp_clients c .tx p d
    rw [Lbl.client, hx]
  | arm c f p => exact harm c f p
  | armTail c p => exact harm c .tx p
  | reap c f k =>
    obtain ⟨x, y, hx⟩ := Lbl.client_reap a d c f k
    rw [hx]
  | gpu s =>
    obtain ⟨x, y, hc⟩ := World.gpuStep_clients a.w s d
    simp only [Lbl.client, hc]
  | store c v =>
    obtain ⟨x, y, hx⟩ := a.w.setWord_clients v (.lastTriggerId c .tx) d
    rw [Lbl.client, hx]
  | _ => rfl

/-- The completion queues grow when a work request is accepted and shrink when
a completion is polled. -/
theorem step_cq {l : Lbl} {a b : Mach} : Step cfg Good l a b → ∀ d g,
    b.w.cq d g = match l with
      | .accept c f p => (a.w.accept c f p).cq d g
      | .handOver c _ p => (a.w.accept c .tx p).cq d g
      | .reap c f k => if d = c ∧ g = f then (a.w.cq d g).eraseIdx k else a.w.cq d g
      | _ => a.w.cq d g := by
  intro hs d g
  cases hs with
  | @take w fn c type st =>
    show w.refill.cq d g = w.cq d g
    unfold World.refill
    split <;> rfl
  | @reap w cur c f k wr =>
    simp only [World.complete_cq]
    split
    · rename_i hd; rw [hd.1, hd.2]
    · rfl
  | @handOver w cur c f p => simp only [(World.handOver_rest w c f p).1]
  | @gpu w cur s => exact congrFun (congrFun (SameCore.gpuStep w s).cq d) g
  | @track w c p s => simp only [World.addLog_cq, World.append_cq]
  | _ => rfl

/-- A stream gets longer by what a call enqueues, and runs by itself. -/
theorem step_streams {l : Lbl} {a b : Mach} : Step cfg Good l a b →
    b.w.streams = match l with
      | .gpu s => (a.w.gpuStep s).streams
      | .enqueue s ops => (a.w.enqueue s ops).streams
      | _ => a.w.streams := by
  intro hs
  cases hs with
  | @take w fn c type st =>
    show w.refill.streams = w.streams
    unfold World.refill
    split <;> rfl
  | @reap w cur c f k wr => exact (World.complete_rest cfg w c f k wr).2.2.1
  | @handOver w cur c f p => exact (World.handOver_rest w c f p).2.1
  | @track w c p s => simp only [World.addLog_streams, World.append_streams]
  | _ => rfl

/-- The request in hand was in hand before, or the step takes or stamps it. -/
theorem step_hand {l : Lbl} {a b : Mach} (hs : Step cfg Good l a b) {k : Cur} (hk : b.cur = some k) :
    (∃ k', a.cur = some k' ∧ k'.ptr = k.ptr ∧ k'.st = k.st) ∨ (∃ fn c, l = .take fn c ∧ k.ptr = a.w.nextFree) ∨
      ∃ c, l = .stamp c k.ptr ∧ k.st = .prepared := by
  cases hs with
  | take fn c type st => cases hk; exact .inr (.inl ⟨fn, c, rfl, rfl⟩)
  | build => cases hk; exact .inl ⟨_, rfl, rfl, rfl⟩
  | @stamp w cur c p => cases hk; exact .inr (.inr ⟨c, rfl, rfl⟩)
  | accept | track | leave | release | waitCpu | waitStream => cases hk
  | _ => exact .inl ⟨k, hk, rfl, rfl⟩

/-- A held request becomes triggered by being armed. -/
theorem step_trigger {l : Lbl} {a b : Mach} (hs : Step cfg Good l a b) {q : Ptr} (ht : (b.w.mem q).trigger = true)
    (ho : (b.w.mem q).owner ≠ none) :
    (a.w.mem q).trigger = true ∨ (∃ c f, l = .arm c f q) ∨ ∃ c, l = .armTail c q := by
  cases step_req hs q with
  | same h => exact .inl (by rw [← h.2.2.2.2.2]; exact ht)
  | take _ _ _ _ _ _ htr => rw [htr] at ht; cases ht
  | release _ ho' => exact absurd ho' ho
  | reap _ _ h | handOver h | waitCpu h | waitStream h => exact .inl (by rw [← h.2.2.2.2]; exact ht)
  | @arm c f => exact .inr (.inl ⟨c, f, rfl⟩)
  | @armTail c => exact .inr (.inr ⟨c, rfl⟩)

/-- `last_posted_tracked_id` does not go down. -/
theorem step_lastPostedTrackedId_le {l : Lbl} {a b : Mach} (hs : Step cfg Good l a b) (d : Nat) (g : Flow) :
    (a.w.clients d).lastPostedTrackedId g ≤ (b.w.clients d).lastPostedTrackedId g := by
  rw [step_lastPostedTrackedId hs d g]
  cases l with
  | arm c f p =>
    cases hs with
    | arm _ _ _ _ hlt =>
      dsimp only
      split
      · rename_i h; obtain ⟨rfl, rfl⟩ := h; exact Nat.le_of_lt hlt
      · exact le_rfl
  | armTail c p =>
    cases hs with
    | armTail _ _ _ hlt =>
      dsimp only
      split
      · rename_i h; obtain ⟨rfl, rfl⟩ := h; exact Nat.le_of_lt hlt
      · exact le_rfl
  | _ => exact le_rfl

/-- A request that is held stays the same operation until it is released. -/
theorem step_held {l : Lbl} {a b : Mach} (hc : CoreInv cfg a) (hs : Step cfg Good l a b) {q : Ptr}
    (ho : (a.w.mem q).owner ≠ none) : l = .release q ∨ ((b.w.mem q).type = (a.w.mem q).type ∧
      (b.w.mem q).peer = (a.w.mem q).peer ∧ (b.w.mem q).id = (a.w.mem q).id ∧
      (b.w.mem q).owner = (a.w.mem q).owner) := by
  cases step_req hs q with
  | same h => exact .inr ⟨h.1, h.2.1, h.2.2.1, h.2.2.2.2.1⟩
  | take fn c hq =>
    cases hs
    rw [hq] at ho
    exact absurd (nextFree_free hc).1 ho
  | release => exact .inl rfl
  | reap _ _ h | handOver h | waitCpu h | waitStream h => exact .inr ⟨h.1, h.2.1, h.2.2.1, h.2.2.2.1⟩
  | arm h | armTail h => rw [h]; exact .inr ⟨rfl, rfl, rfl, rfl⟩

/-- A held request that was free before the step is the one it took. -/
theorem step_fresh {l : Lbl} {a b : Mach} (hs : Step cfg Good l a b) {q : Ptr} (hoa : (a.w.mem q).owner = none)
    (ho : (b.w.mem q).owner ≠ none) : ∃ fn c, l = .take fn c ∧ cfg.clientIndex (b.w.mem q).peer = some c ∧
      (b.w.mem q).id = (a.w.clients c).lastReqId + 1 ∧
      ((b.w.mem q).status = .prepared ∨ (b.w.mem q).status.isPending) := by
  cases step_req hs q with
  | take fn c _ hpeer hid _ _ hst => exact ⟨fn, c, rfl, hpeer, hid, hst⟩
  | same h => exact absurd (h.2.2.2.2.1.trans hoa) ho
  | release _ ho' => exact absurd ho' ho
  | reap _ _ h | handOver h | waitCpu h | waitStream h => exact absurd (h.2.2.2.1.trans hoa) ho
  | arm h | armTail h => exact absurd (by rw [h]; exact hoa) ho

/-- The flags of a held request change while it is filled in only. -/
theorem step_flags {l : Lbl} {a b : Mach} (hc : CoreInv cfg a) (hs : Step cfg Good l a b) {q : Ptr}
    (ho : (a.w.mem q).owner ≠ none) :
    (b.w.mem q).flags = (a.w.mem q).flags ∨ ∃ k, a.cur = some k ∧ k.ptr = q := by
  cases hs with
  | @take w fn c type st =>
    have hq : q ≠ w.nextFree := by
      rintro rfl
      exact absurd (nextFree_free hc).1 ho
    obtain ⟨n, hn⟩ := w.refill_mem q
    refine .inl ?_
    rw [w.take_other fn c (cfg.mpiRank c) type st hq, hn]
  | @build w st bt p g hg hok =>
    -- the flags of a put are stored while the call still holds the request
    by_cases hq : q = p
    · exact .inr ⟨_, rfl, hq.symm⟩
    · exact .inl (by simp [hq])
  | @handOver w cur c f p =>
    obtain ⟨n, v, hm⟩ := World.handOver_mem w c f p q
    refine .inl ?_
    rw [hm]
  | @reap w cur c f k wr ans hk hp =>
    refine .inl ?_
    rw [World.complete_mem cfg hp]
    split
    · rename_i hq; rw [hq]
    · rfl
  | @track w c p s =>
    obtain ⟨n, v, hm⟩ := World.append_links (w := w) (c := c) (f := .tx) (p := p) q
    exact .inl (by rw [World.addLog_mem, hm])
  | @gpu w cur s => exact .inl (by rw [World.gpuStep_mem])
  | arm | armTail | fill | waitCpu | waitStream | touch | release =>
    refine .inl ?_
    simp only [World.arm, World.fillWait, World.release, World.setClient_mem, World.setReq_mem]
    split
    · rename_i hq; rw [hq]
    · rfl
  | _ => exact .inl rfl

end LibMp
