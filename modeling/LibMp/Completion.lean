import LibMp.Runs

/- Completions without event sync.

   Requests are recycled through one free list while pointers to them sit in
   the completion queues of the HCA. What the completion loop finds there is
   the invariant `Core`: the request is live, is the one of the operation that
   was posted, and is pending. -/
namespace LibMp
variable (cfg : Config)

/-- The calls of mp.c, and the sends and the wait of mp_peersync.c that post at
once; waits are on live requests. -/
def DirectCalls : Event → World → Prop
  | .call (.isend ..) _, _ | .call (.irecv ..) _, _ | .call (.isendv ..) _, _ | .call (.irecvv ..) _, _
  | .call (.iput ..) _, _ | .call (.iget ..) _, _ | .call (.isendOnStream ..) _, _
  | .call (.isendvOnStream ..) _, _ => True
  | .call (.waitOnStream p _) _, w => Live w p
  | .call (.waitAll ps) _, w | .call (.progressAll ps) _, w => ∀ p ∈ ps, Live w p
  | .call _ _, _ => False
  | .gpu _, _ | .work _ _, _ => True

variable {cfg}

theorem opOk_of_directCalls (he : cfg.useEventSync = false) {w : World} {op : Op}
    {tape : List Ans} (h : DirectCalls (.call op tape) w) : OpOk cfg anyAns anyStep w op := by
  cases op with
  | waitOnStream p s =>
    exact ⟨(fun ht => by rw [he] at ht; cases ht), fun _ _ => trivial⟩
  | isend | irecv | isendv | irecvv | iput | iget | isendOnStream | isendvOnStream | waitAll | progressAll =>
    exact trivial
  | _ => exact h.elim

theorem directCalls_moves (he : cfg.useEventSync = false) {w : World} (h : Reach cfg DirectCalls w) :
    Moves (Move cfg anyAns anyStep) ⟨World.init, none⟩ ⟨w, none⟩ := by
  refine reach_moves (fun w ev _ _ hok ha => ?_) h
  refine event_moves (fun _ _ _ => trivial) (fun _ _ _ => trivial) trivial (fun _ _ _ _ _ => trivial)
    ?_ (fun _ _ => trivial) ha
  rintro op tape rfl
  exact ⟨opOk_of_directCalls he hok, fun _ _ => trivial⟩

/-- A completion that the loop finds with a pending request and, with event
sync, an id above the last tracked one, is processed. -/
theorem progressCompletion_run {w : World} {c : Nat} {f : Flow} {k : Nat} {wr : Wr} (hk : (w.cq c f)[k]? = some wr)
    (hp : (w.mem wr.wrId).status.isPending) (ht : w.TrackedOk cfg c f wr.wrId) (tape : List Ans) :
    progressCompletion cfg c f k ⟨w, tape⟩ = (.ok (), ⟨w.complete cfg c f k wr, tape⟩) := by
  have hst : (w.mem wr.wrId).status = .pendingNowait ∨ (w.mem wr.wrId).status = .pending := by
    cases hs : (w.mem wr.wrId).status <;> simp_all [State.isPending]
  have htr : (cfg.useEventSync = false ∨ (w.mem wr.wrId).trigger = false) ∨
      (w.clients c).lastTrackedId f < (w.mem wr.wrId).id := by
    cases h1 : cfg.useEventSync with
    | false => exact .inl (.inl rfl)
    | true =>
      cases h2 : (w.mem wr.wrId).trigger with
      | false => exact .inl (.inr rfl)
      | true => exact .inr (ht h1 h2)
  simp [progressCompletion, world, update, Prog.bind_run, Prog.pure_run, hk, Prog.require, hst, htr]

/-- What stands in the completion queues of any reachable world: requests that
are live, belong to the operation that was posted and are pending. So a
completion makes exactly that request complete, and no call reaches the
`exit(-1)` of the completion loop. -/
theorem completions_find_their_request (he : cfg.useEventSync = false) {w : World} (h : Reach cfg DirectCalls w) :
    (∀ c f k wr, (w.cq c f)[k]? = some wr →
      Live w wr.wrId ∧ (w.mem wr.wrId).id = wr.op ∧ cfg.clientIndex (w.mem wr.wrId).peer = some c ∧
      (w.mem wr.wrId).type.flow = f ∧
      ((w.mem wr.wrId).status = .pendingNowait ∨ (w.mem wr.wrId).status = .pending) ∧
      ∀ tape, ∃ w', progressCompletion cfg c f k ⟨w, tape⟩ = (.ok (), ⟨w', tape⟩) ∧
        (∀ q, (w'.mem q).status = if q = wr.wrId then .complete else (w.mem q).status) ∧
        w'.cq c f = (w.cq c f).eraseIdx k) ∧
    ∀ op tape, DirectCalls (.call op tape) w → (op.exec cfg tape w).1 ≠ .error .exitStatus := by
  have hm := directCalls_moves he h
  have hc := coreInv_moves coreInv_init hm
  constructor
  · intro c f k wr hk
    obtain ⟨fl, pl, hcore⟩ := hc
    obtain ⟨ho, hat, hid, hp⟩ := hcore.cq_mem c f wr (List.mem_of_getElem? hk)
    refine ⟨(live_iff_owner ⟨fl, pl, hcore⟩ _).mpr ho, hid, hat.1, hat.2.2, ?_, ?_⟩
    · cases hs : (w.mem wr.wrId).status <;> simp_all [State.isPending]
    · intro tape
      refine ⟨w.complete cfg c f k wr, progressCompletion_run hk hp (fun ht => ?_) tape, ?_, ?_⟩
      · rw [he] at ht; cases ht
      · intro q
        rw [World.complete_mem cfg hp]
        split <;> rfl
      · rw [World.complete_cq, if_pos ⟨rfl, rfl⟩]
  · intro op tape hok hexit
    have hf : Follows cfg anyAns anyStep ⟨w, none⟩ (op.run cfg) (fun _ b => b.Built) :=
      follows_run (fun _ _ _ => trivial) (fun _ _ _ => trivial) trivial (opOk_of_directCalls he hok)
    obtain ⟨a, s, hma, c, f, wr, hwr, hnp⟩ := exec_halt hf (fun _ _ => trivial) hexit
    obtain ⟨fl, pl, hcore⟩ := coreInv_moves hc hma
    exact hnp (hcore.cq_mem c f wr hwr).2.2.2

/-- One peer, of rank 1. -/
def onePeer : Config := { peers := [1] }

/-- A send to it. -/
def sendOne : Event := .call (.isend 0 8 1 ⟨0⟩) []

/-- A send is outstanding: its completion finds request 0, pending. -/
theorem completions_find_their_request_of_send :
    (∃ w, Reach onePeer DirectCalls w ∧ (w.cq 0 .tx)[0]? = some ⟨0, 1⟩ ∧ Live w 0 ∧
      ((w.mem 0).status = .pendingNowait ∨ (w.mem 0).status = .pending)) := by
  have hr : Reach onePeer DirectCalls (World.init.after onePeer [sendOne]) :=
    Reach.init.after onePeer ⟨trivial, by decide, trivial⟩
  have hcq : ((World.init.after onePeer [sendOne]).cq 0 .tx)[0]? = some ⟨0, 1⟩ := by decide
  obtain ⟨hlive, -, -, -, hst, -⟩ := (completions_find_their_request rfl hr).1 0 .tx 0 ⟨0, 1⟩ hcq
  exact ⟨_, hr, hcq, hlive, hst⟩

/-! ## Waits on a stream and completed requests -/

/-- The requests a wait call makes pending, if its assertions hold. -/
def Op.waitTargets (w : World) : Op → List Ptr
  | .waitOnStream p _ => if (w.mem p).canBeWaited then [p] else []
  | .waitAllOnStream ps _ => ps.takeWhile fun p => (w.mem p).canBeWaited
  | .descAddWaitSend _ p => if (w.mem p).type.tx && (w.mem p).canBeWaited then [p] else []
  | .descAddWaitRecv _ p => if (w.mem p).type.rx then [p] else []
  | .getWaitDesc p => [p]
  | _ => []

/-- The calls that post at once, and all the waits. -/
def WaitCalls : Event → World → Prop
  | .call op _, _ =>
    match op with
    | .isend .. | .irecv .. | .iput .. | .iget .. | .isendOnStream .. | .waitOnStream .. | .waitAllOnStream ..
    | .descAddWaitSend .. | .descAddWaitRecv .. | .getWaitDesc _ | .progressAll _ | .waitAll _ => True
    | _ => False
  | .gpu _, _ | .work _ _, _ => True

/-- These calls, the waits on requests that are not complete when the wait is enqueued. -/
def WaitBeforeComplete (ev : Event) (w : World) : Prop :=
  WaitCalls ev w ∧ ∀ op tape, ev = .call op tape → ∀ p ∈ op.waitTargets w, (w.mem p).status ≠ .complete

/-- A stream wait finds its request not complete. -/
def waitsIncomplete : Lbl → Mach → Prop
  | .waitStream p, a => (a.w.mem p).status ≠ .complete
  | _, _ => True

theorem opOk_of_waitCalls {K : Lbl → Mach → Prop} (he : cfg.useEventSync = false) {w : World} {op : Op}
    {tape : List Ans} (h : WaitCalls (.call op tape) w)
    (hK : ∀ b : Mach, ∀ p ∈ op.waitTargets w, (b.w.mem p).status = (w.mem p).status → K (.waitStream p) b) :
    OpOk cfg anyAns K w op := by
  have hne : ¬ cfg.useEventSync = true := by rw [he]; decide
  cases op with
  | waitOnStream p s =>
    exact ⟨fun ht => absurd ht hne, fun _ hw => hK ⟨w, none⟩ p (by simp [Op.waitTargets, hw]) rfl⟩
  | waitAllOnStream ps s => exact ⟨fun ht => absurd ht hne, fun _ b p hm hst => hK b p hm hst⟩
  | descAddWaitSend dq p =>
    exact ⟨he, fun htx hw b hb => hK b p (by simp [Op.waitTargets, htx, hw]) (by rw [hb])⟩
  | descAddWaitRecv dq p => exact ⟨he, fun hrx b hb => hK b p (by simp [Op.waitTargets, hrx]) (by rw [hb])⟩
  | getWaitDesc p => exact ⟨he, hK ⟨w, none⟩ p (by simp [Op.waitTargets]) rfl⟩
  | isend | irecv | iput | iget | isendOnStream | progressAll | waitAll => exact trivial
  | _ => exact h.elim

theorem waitBeforeComplete_moves (he : cfg.useEventSync = false) {w : World} {ev : Event}
    (h : WaitBeforeComplete ev w) (ha : alive (ev.exec cfg w).1) :
    Moves (Move cfg anyAns waitsIncomplete) ⟨w, none⟩ ⟨(ev.exec cfg w).2, none⟩ := by
  refine event_moves ?_ (fun _ _ _ => trivial) trivial (fun _ _ _ _ _ => trivial) ?_ (fun _ _ => trivial) ha
  · intro l a hl
    cases l <;> trivial
  · rintro op tape rfl
    refine ⟨opOk_of_waitCalls he h.1 (fun b p hp hst => ?_), fun _ _ => trivial⟩
    show (b.w.mem p).status ≠ .complete
    rw [hst]
    exact h.2 op tape rfl p hp

/-- The invariant of the pool holds along the runs of these calls. -/
theorem coreInv_of_waitCalls (he : cfg.useEventSync = false) {w : World} (h : Reach cfg WaitCalls w) :
    CoreInv cfg ⟨w, none⟩ := by
  have hm : Moves (Move cfg anyAns anyStep) ⟨World.init, none⟩ ⟨w, none⟩ := by
    refine reach_moves (fun w ev _ _ hok ha => ?_) h
    refine event_moves (fun _ _ _ => trivial) (fun _ _ _ => trivial) trivial (fun _ _ _ _ _ => trivial)
      ?_ (fun _ _ => trivial) ha
    rintro op tape rfl
    exact ⟨opOk_of_waitCalls he hok (fun _ _ _ _ => trivial), fun _ _ => trivial⟩
  exact coreInv_moves coreInv_init hm

/-- `l` was logged between `a` and `b`, and a complete request of `a` is
complete in `b` or was released. -/
structure StaysComplete (a b : Mach) (l : List LogEv) : Prop where
  log : b.w.log = a.w.log ++ l
  req : ∀ p, (a.w.mem p).status = .complete →
    ((b.w.mem p).status = .complete ∧ (b.w.mem p).peer = (a.w.mem p).peer ∧ (b.w.mem p).id = (a.w.mem p).id) ∨
      .released p (a.w.mem p).peer (a.w.mem p).id ∈ l

theorem StaysComplete.trans {a b c : Mach} {l₁ l₂ : List LogEv} (h₁ : StaysComplete a b l₁)
    (h₂ : StaysComplete b c l₂) : StaysComplete a c (l₁ ++ l₂) := by
  refine ⟨by rw [h₂.log, h₁.log, List.append_assoc], fun p hp => ?_⟩
  rcases h₁.req p hp with ⟨hst, hpeer, hid⟩ | hr
  · rcases h₂.req p hst with ⟨hst', hpeer', hid'⟩ | hr
    · exact .inl ⟨hst', hpeer'.trans hpeer, hid'.trans hid⟩
    · rw [hpeer, hid] at hr
      exact .inr (List.mem_append_right _ hr)
  · exact .inr (List.mem_append_left _ hr)

theorem staysComplete_step {a b : Mach} {l : Lbl} (hc : CoreInv cfg a) (hk : waitsIncomplete l a)
    (hs : Step cfg anyAns l a b) : StaysComplete a b (l.log a) := by
  refine ⟨step_log hs, fun p hp => ?_⟩
  cases step_req hs p with
  | same h => exact .inl ⟨h.2.2.2.1.trans hp, h.2.1, h.2.2.1⟩
  | take fn c hq =>
    cases hs
    have := (nextFree_free hc).2
    rw [hq] at hp
    rw [this] at hp
    cases hp
  | release => exact .inr (by simp [Lbl.log])
  | reap _ _ _ hpend => rw [hp] at hpend; exact hpend.elim
  | handOver _ hprep => rw [hp] at hprep; cases hprep
  | waitCpu _ hnow => rw [hp] at hnow; cases hnow
  | waitStream => exact absurd hp hk
  | arm h | armTail h => rw [h]; exact .inl ⟨hp, rfl, rfl⟩

theorem staysComplete_moves {a b : Mach} (hc : CoreInv cfg a) (hm : Moves (Move cfg anyAns waitsIncomplete) a b) :
    ∃ l, StaysComplete a b l := by
  induction hm with
  | refl => exact ⟨[], by simp, fun p hp => .inl ⟨hp, rfl, rfl⟩⟩
  | tail hm hl ih =>
    obtain ⟨l, hl₁⟩ := ih
    obtain ⟨lbl, hk, hs⟩ := hl
    exact ⟨_, hl₁.trans (staysComplete_step (coreInv_moves hc hm) hk hs)⟩

/-- A request whose completion was polled is complete, while it belongs to
the operation that was posted. -/
def PolledComplete (cfg : Config) (a : Mach) : Prop :=
  ∀ c f p op, .polled c f p op ∈ a.w.log → op ≤ (a.w.clients c).lastReqId ∧
    ((a.w.mem p).owner ≠ none → cfg.clientIndex (a.w.mem p).peer = some c → (a.w.mem p).id = op →
      (a.w.mem p).status = .complete)

/-- The only completions a step adds are those the loop has just processed. -/
theorem polled_of_log {a b : Mach} {l : Lbl} (hs : Step cfg anyAns l a b) {c : Nat} {f : Flow} {p : Ptr} {op : Nat}
    (h : .polled c f p op ∈ l.log a) : op = (a.w.mem p).id ∧ (b.w.mem p).status = .complete ∧
      (b.w.mem p).id = (a.w.mem p).id ∧ ∃ (k : Nat) (wr : Wr), (a.w.cq c f)[k]? = some wr ∧ wr.wrId = p := by
  cases hs with
  | @reap w cur d g k wr ans hk hp _ _ _ =>
    simp only [Lbl.log, hk, List.mem_singleton] at h
    cases h
    refine ⟨rfl, ?_, ?_, k, wr, hk, rfl⟩ <;> simp only [World.complete_mem cfg hp, if_true]
  | @gpu w cur s =>
    obtain ⟨o, rest, -, -, he⟩ := mem_log_gpu h
    cases he
  | _ => simp [Lbl.log] at h

theorem PolledComplete.step {a b : Mach} {l : Lbl} (hc : CoreInv cfg a) (h : PolledComplete cfg a)
    (hk : waitsIncomplete l a) (hs : Step cfg anyAns l a b) : PolledComplete cfg b := by
  intro c f p op hmem
  rw [step_log hs] at hmem
  have hle := step_lastReqId_le hs c
  rcases List.mem_append.mp hmem with hold | hnew
  · obtain ⟨hop, hst⟩ := h c f p op hold
    refine ⟨Nat.le_trans hop hle, fun ho hpeer hid => ?_⟩
    cases step_req hs p with
    | same h =>
      obtain ⟨-, h2, h3, h4, h5, -⟩ := h
      rw [h4]
      exact hst (by rw [← h5]; exact ho) (by rw [← h2]; exact hpeer) (h3.symm.trans hid)
    | take fn d hq hpeer' hid' =>
      -- the new operation of this client has a larger id
      have : d = c := Option.some.inj (hpeer'.symm.trans hpeer)
      subst this
      omega
    | release _ ho' => exact absurd ho' ho
    | reap _ _ _ _ hst' => exact hst'
    | handOver h hprep =>
      obtain ⟨-, h2, h3, h4, -⟩ := h
      have := hst (by rw [← h4]; exact ho) (by rw [← h2]; exact hpeer) (h3.symm.trans hid)
      rw [hprep] at this
      cases this
    | waitCpu h hnow =>
      obtain ⟨-, h2, h3, h4, -⟩ := h
      have := hst (by rw [← h4]; exact ho) (by rw [← h2]; exact hpeer) (h3.symm.trans hid)
      rw [hnow] at this
      cases this
    | waitStream h =>
      obtain ⟨-, h2, h3, h4, -⟩ := h
      exact absurd (hst (by rw [← h4]; exact ho) (by rw [← h2]; exact hpeer) (h3.symm.trans hid)) hk
    | arm h | armTail h =>
      rw [h] at ho hpeer hid ⊢
      exact hst ho hpeer hid
  · obtain ⟨hop, hst, hid, k, wr, hwr, rfl⟩ := polled_of_log hs hnew
    obtain ⟨fl, pl, hcore⟩ := hc
    obtain ⟨ho, hat, -⟩ := hcore.cq_mem c f wr (List.mem_of_getElem? hwr)
    exact ⟨by rw [hop]; exact Nat.le_trans (hcore.id_le _ c ho hat.1) hle, fun _ _ _ => hst⟩

theorem polledComplete_moves {a b : Mach} (hc : CoreInv cfg a) (h : PolledComplete cfg a)
    (hm : Moves (Move cfg anyAns waitsIncomplete) a b) : PolledComplete cfg b := by
  have := Moves.inv (I := fun a => CoreInv cfg a ∧ PolledComplete cfg a) (fun a b ⟨hc, h⟩ ⟨l, hk, hs⟩ =>
    ⟨Core.step hc hs, h.step hc hk hs⟩) hm ⟨hc, h⟩
  exact this.2

/-- Where no wait is enqueued for a complete request, a complete request stays
complete until it is released, and no live request is pending after its
completion was polled. -/
theorem complete_until_released (he : cfg.useEventSync = false) {w v : World} (h : Reach cfg WaitBeforeComplete w)
    (hl : Later cfg WaitBeforeComplete w v) :
    (∀ p, Live w p → (w.mem p).status = .complete →
      (v.mem p).status = .complete ∧ (v.mem p).peer = (w.mem p).peer ∧ (v.mem p).id = (w.mem p).id ∨
        ∃ l, v.log = w.log ++ l ∧ .released p (w.mem p).peer (w.mem p).id ∈ l) ∧
    ∀ c f p op, .polled c f p op ∈ v.log → Live v p → cfg.clientIndex (v.mem p).peer = some c →
      (v.mem p).id = op → (v.mem p).status ≠ .pending := by
  have hw : Moves (Move cfg anyAns waitsIncomplete) ⟨World.init, none⟩ ⟨w, none⟩ :=
    reach_moves (fun w ev _ _ hok ha => waitBeforeComplete_moves he hok ha) h
  have hv : Moves (Move cfg anyAns waitsIncomplete) ⟨w, none⟩ ⟨v, none⟩ :=
    hl.moves (fun v ev hok ha => waitBeforeComplete_moves he hok ha)
  constructor
  · intro p _ hp
    obtain ⟨l, hlog, hreq⟩ := staysComplete_moves (coreInv_moves coreInv_init hw) hv
    rcases hreq p hp with hst | hr
    · exact .inl hst
    · exact .inr ⟨l, hlog, hr⟩
  · intro c f p op hmem hlive hpeer hid hst
    have hinit : PolledComplete cfg ⟨World.init, none⟩ := by
      intro c f p op hmem
      simp [World.init, World.empty, World.allocateRequests] at hmem
    have hpc := polledComplete_moves coreInv_init hinit (hw.trans hv)
    have ho := (live_iff_owner (coreInv_moves coreInv_init (hw.trans hv)) p).mp hlive
    have := (hpc c f p op hmem).2 ho hpeer hid
    have hst' : (v.mem p).status = .pending := hst
    rw [show (v.mem p).status = .complete from this] at hst'
    cases hst'

/-- Progress for request 0, which finds its completion. -/
def pollZero : Event := .call (.progressAll [0]) [{ picks := [0] }]

/-- A wait for request 0 on stream 0. -/
def waitZero : Event := .call (.waitOnStream 0 0) []

/-- Waits for request 1 on stream 0 and for request 0 on the CPU. -/
def waitOne : Event := .call (.waitOnStream 1 0) []
def waitAllZero : Event := .call (.waitAll [0]) []

/-- A send is complete, and stays so while another is sent and a stream waits for
that one, until a wait on the CPU releases it. -/
theorem complete_until_released_of_sends : ∃ w u v, Reach onePeer WaitBeforeComplete w ∧ Live w 0 ∧
    (w.mem 0).status = .complete ∧ Later onePeer WaitBeforeComplete w u ∧ (u.mem 1).status = .pending ∧
    (u.mem 0).status = .complete ∧ Later onePeer WaitBeforeComplete u v ∧
    ∃ l, v.log = w.log ++ l ∧ .released 0 (w.mem 0).peer (w.mem 0).id ∈ l := by
  have hnowait : ∀ {op : Op} {tape : List Ans} {w : World}, WaitCalls (.call op tape) w → op.waitTargets w = [] →
      WaitBeforeComplete (.call op tape) w := by
    intro op tape w hcall hnone
    refine ⟨hcall, fun op' tape' h p hp => ?_⟩
    cases h
    rw [hnone] at hp
    cases hp
  have hr : Reach onePeer WaitBeforeComplete (World.init.after onePeer [sendOne, pollZero]) :=
    Reach.init.after onePeer ⟨hnowait trivial rfl, by decide, hnowait trivial rfl, by decide, trivial⟩
  have hlive : Live (World.init.after onePeer [sendOne, pollZero]) 0 :=
    (live_iff_owner (coreInv_moves coreInv_init (reach_moves
      (fun _ _ _ _ hok ha => waitBeforeComplete_moves rfl hok ha) hr)) 0).mpr (by decide)
  have hu : Later onePeer WaitBeforeComplete (World.init.after onePeer [sendOne, pollZero])
      (World.init.after onePeer [sendOne, pollZero, sendOne, waitOne]) := by
    refine (Later.refl.step sendOne (hnowait trivial rfl) (by decide)).step waitOne ⟨trivial, ?_⟩ (by decide)
    rintro op tape h p hp
    cases h
    -- the stream waits for request 1, which is still pending
    obtain rfl := List.mem_singleton.mp hp
    decide
  have hv := hu.step waitAllZero (hnowait trivial rfl) (by decide)
  have hlast : Later onePeer WaitBeforeComplete (World.init.after onePeer [sendOne, pollZero, sendOne, waitOne]) _ :=
    Later.refl.step waitAllZero (hnowait trivial rfl) (by decide)
  refine ⟨_, _, _, hr, hlive, by decide, hu, by decide, ?_, hlast, ?_⟩
  · rcases (complete_until_released rfl hr hu).1 0 hlive (by decide) with h | ⟨l, hl, hmem⟩
    · exact h.1
    · have hnot : LogEv.released 0 1 1 ∉ (World.init.after onePeer [sendOne, pollZero, sendOne, waitOne]).log := by
        decide
      exact absurd (hl ▸ List.mem_append_right _ hmem) hnot
  · rcases (complete_until_released rfl hr hv).1 0 hlive (by decide) with h | h
    · exact absurd h.1 (by decide)
    · exact h

/-- The wait overwrites the status of a complete request: its completion was
polled, and it is pending for ever. -/
theorem wait_reopens_complete_request :
    ∃ w, Reach onePeer WaitCalls w ∧ Live w 0 ∧ (w.mem 0).status = .complete ∧ WaitCalls waitZero w ∧
      alive (waitZero.exec onePeer w).1 ∧ Live (waitZero.exec onePeer w).2 0 ∧
      ((waitZero.exec onePeer w).2.mem 0).status = .pending ∧
      .polled 0 .tx 0 ((waitZero.exec onePeer w).2.mem 0).id ∈ (waitZero.exec onePeer w).2.log ∧
      (waitZero.exec onePeer w).2.cq 0 .tx = [] := by
  have hr : Reach onePeer WaitCalls (World.init.after onePeer [sendOne, pollZero]) :=
    Reach.init.after onePeer ⟨trivial, by decide, trivial, by decide, trivial⟩
  have hr' := hr.step waitZero trivial (by decide)
  exact ⟨_, hr, (live_iff_owner (coreInv_of_waitCalls rfl hr) 0).mpr (by decide), by decide, trivial, by decide,
    (live_iff_owner (coreInv_of_waitCalls rfl hr') 0).mpr (by decide), by decide, by decide, by decide⟩

end LibMp
