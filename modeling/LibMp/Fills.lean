import LibMp.FillInv

/- The wait infos: what is given to the HCA or to a stream was filled for the
   operation that is waited for, and no fill is given twice.

   Every call that waits for requests with a fill of their own (`FillsReady`)
   keeps the invariant. The calls that prepare no fill are the sends and
   receives of the CPU with event sync, and the blocking sends. -/
namespace LibMp
variable {cfg : Config}

/-! ## Calls -/

/-- The program comes back with `P`, or is in a loop after such a step. -/
def Lands {α : Type} (cfg : Config) (w : World) (m : M α) (P : α → Sys → Prop) (s : Sys) : Prop :=
  Prog.wp m (fun e s' => e = .spinning → FillStep cfg w s'.w) P s

/-- The call comes back after such a step, or is in a loop after one. -/
abbrev Serves {α : Type} (cfg : Config) (w : World) (m : M α) (s : Sys) : Prop :=
  Lands cfg w m (fun _ s' => FillStep cfg w s'.w) s

/-- What the loop of `mp_wait_all_on_stream` leaves when it comes back with `ret`:
with 0, the requests are distinct and could all be waited for. -/
structure Marked (ps : List Ptr) (w w' : World) (ret : Int) : Prop where
  quiet : Quiet w w'
  log : w'.log = w.log
  same : ∀ q, (w.mem q).SameWait (w'.mem q)
  status : ∀ q, (w'.mem q).status = (w.mem q).status ∨ (w'.mem q).status = .pending
  all : ret = 0 → ps.Nodup ∧ ∀ p ∈ ps, (w.mem p).canBeWaited = true ∧
    ((w.mem p).status = .pendingNowait ∨ (w.mem p).status = .complete) ∧ (w'.mem p).status = .pending

/-- One turn more. -/
theorem Marked.cons {ps : List Ptr} {w w' : World} {ret : Int} {p : Ptr} {st : Option Stream}
    (h : Marked ps (w.setReq p fun r => { r with stream := st, status := .pending }) w' ret)
    (hcan : (w.mem p).canBeWaited = true)
    (hst : (w.mem p).status = .pendingNowait ∨ (w.mem p).status = .complete) : Marked (p :: ps) w w' ret := by
  have hself : ((w.setReq p fun r => { r with stream := st, status := .pending }).mem p).status = .pending := by simp
  have hother : ∀ q, q ≠ p → (w.setReq p fun r => { r with stream := st, status := .pending }).mem q = w.mem q := by
    intro q hq
    rw [World.setReq_mem, if_neg hq]
  have hpending : (w'.mem p).status = .pending := by
    rcases h.status p with hp | hp
    · rw [hp, hself]
    · exact hp
  refine ⟨(Quiet.pends w p st).trans h.quiet, h.log, fun q => ?_, fun q => ?_, fun h0 => ?_⟩
  · exact (Request.SameWait.setReq (.pends _ st) q).trans (h.same q)
  · by_cases hq : q = p
    · rw [hq]
      exact .inr hpending
    · rw [← hother q hq]
      exact h.status q
  · obtain ⟨hnd, hall⟩ := h.all h0
    -- the request itself is pending now, so it does not come again
    have hne : ∀ q ∈ ps, q ≠ p := by
      intro q hq heq
      obtain ⟨-, hstq, -⟩ := hall q hq
      rw [heq, hself] at hstq
      rcases hstq with hstq | hstq <;> cases hstq
    refine ⟨List.nodup_cons.mpr ⟨fun hp => hne p hp rfl, hnd⟩, fun q hq => ?_⟩
    rcases List.mem_cons.mp hq with rfl | hq
    · exact ⟨hcan, hst, hpending⟩
    · obtain ⟨h1, h2, h3⟩ := hall q hq
      rw [hother q (hne q hq)] at h1 h2
      exact ⟨h1, h2, h3⟩

theorem World.give_setReq (w : World) (p : Ptr) {g : Request → Request} (hi : (g (w.mem p)).id = (w.mem p).id)
    (hinfo : (g (w.mem p)).gdsWaitInfo = (w.mem p).gdsWaitInfo) : (w.give p).setReq p g = (w.setReq p g).give p := by
  simp [World.give, World.setReq, World.addLog, hi, hinfo]

namespace Lands
variable {α β : Type} {w : World} {s : Sys} {P : α → Sys → Prop} {Q : β → Sys → Prop}

theorem pure {x : α} (h : P x s) : Lands cfg w (Pure.pure x) P s := h

theorem bind {m : M α} {f : α → M β} (hm : Lands cfg w m P s) (hf : ∀ x s', P x s' → Lands cfg w (f x) Q s') :
    Lands cfg w (m >>= f) Q s :=
  Comes.bind hm hf

theorem step {m : M α} {f : α → M β} {x : α} {s' : Sys} (hm : m s = (.ok x, s')) (h : Lands cfg w (f x) Q s') :
    Lands cfg w (m >>= f) Q s :=
  Comes.step hm h

theorem done {m : M α} {x : α} {s' : Sys} (hm : m s = (.ok x, s')) (h : P x s') : Lands cfg w m P s := by
  unfold Lands
  rw [Prog.wp_ok hm]
  exact h

theorem clientOf {peer : Nat} {f : Nat → M β} (h : ∀ c, cfg.clientIndex peer = some c → Lands cfg w (f c) Q s) :
    Lands cfg w (LibMp.clientOf cfg peer >>= f) Q s :=
  Comes.clientOf h

theorem require {b : Bool} {e : Stop} {f : Unit → M β} (he : e ≠ .spinning) (h : b = true → Lands cfg w (f ()) Q s) :
    Lands cfg w (Prog.require b e >>= f) Q s :=
  Comes.require he h

theorem ite {c : Prop} [Decidable c] {m₁ m₂ : M α} (h₁ : c → Lands cfg w m₁ P s) (h₂ : ¬ c → Lands cfg w m₂ P s) :
    Lands cfg w (if c then m₁ else m₂) P s :=
  Comes.ite h₁ h₂

theorem start {fn : Fn} {c rank : Nat} {type : ReqType} {st : State} {bld : Ptr → World → World} {rest : Ptr → M β}
    {tape : List Ans} (h : Lands cfg w (rest w.nextFree) Q ⟨bld w.nextFree (w.take fn c rank type st), tape⟩) :
    Lands cfg w (newStreamRequest fn c rank type st >>= fun p => update (bld p) >>= fun _ => rest p) Q ⟨w, tape⟩ :=
  Comes.start h

end Lands

namespace Serves
variable {α β : Type} {w : World} {s : Sys}

theorem quietly {m : M α} (h : FillInv cfg none w) (hm : Quietly m) (tape : List Ans) : Serves cfg w m ⟨w, tape⟩ :=
  hm.wp (fun _ _ hq _ => .quiet h hq) fun _ _ hq => .quiet h hq

/-- The rest of the call does not concern the wait infos. -/
theorem andQuietly {m : M α} (h : FillStep cfg w s.w) (hm : Quietly m) : Serves cfg w m s :=
  hm.wp (fun _ _ hq _ => h.andQuiet hq) fun _ _ hq => h.andQuiet hq

/-! The calls that take a request. -/

section Succeeds
variable {tape : List Ans} (h : FillInv cfg none w) (ht : Succeeds tape)
include h ht

/-- The end of the sends and receives of the CPU: they prepare the wait info
without event sync. -/
theorem nonEventFill {fn : Fn} {c peer : Nat} {type : ReqType} {w' : World} (hc : cfg.clientIndex peer = some c)
    (hst : fn ≠ .mpSendOnStream) (hput : fn.isPut = false) (hfn : fn.preparesWait cfg = !cfg.useEventSync)
    (hq : Quiet (w.begun cfg fn c type .pendingNowait 0) w') (x : Int × Option Ptr) :
    Serves cfg w (do
      if !cfg.useEventSync then
        let ret ← gdsPrepareWaitCq c type.flow w.nextFree
        if ret ≠ 0 then return (ret, none)
      return x) ⟨w', tape⟩ := by
  have hno : fn.isPut = true → type.rx = false := by
    intro hp
    rw [hput] at hp
    cases hp
  cases he : cfg.useEventSync with
  | true =>
    refine .pure (.unfilled h hc hq (fun _ => hst) hno fun hp => ?_)
    rw [hfn, he] at hp
    cases hp
  | false => exact .step (gdsPrepareWaitCq_run ht _ _ _ _) (.pure (.filled h hc hq (fun _ => hst) hno))

theorem mpIsend (buf : Nat) (size : Int) (peer : Nat) (reg : Reg) :
    Serves cfg w (mpIsend cfg buf size peer reg) ⟨w, tape⟩ := by
  refine .clientOf fun c hc => .start (.step (mpPostSend_run ht _ _ _) ?_)
  rw [if_neg (by decide)]
  exact nonEventFill h ht.tail hc (by decide) rfl rfl
    ((Quiet.buildSend cfg w .mpIsend c .send .pendingNowait buf size reg).trans (.accept _ c .tx _)) _

theorem mpIrecv (buf : Nat) (size : Int) (peer : Nat) (reg : Reg) :
    Serves cfg w (mpIrecv cfg buf size peer reg) ⟨w, tape⟩ := by
  refine .clientOf fun c hc => .start (.step (mpPostRecv_run ht _ _ _) ?_)
  rw [if_neg (by decide)]
  exact nonEventFill h ht.tail hc (by decide) rfl rfl
    ((Quiet.buildRecv cfg w .mpIrecv c .recv .pendingNowait buf size reg).trans (.accept _ c .rx _)) _

theorem mpIsendv (v : List Iovec) (peer : Nat) (reg : Reg) : Serves cfg w (mpIsendv cfg v peer reg) ⟨w, tape⟩ := by
  refine .ite (fun _ => .pure (.quiet h (.refl w))) fun _ => .clientOf fun c hc =>
    .start (.step (gdsPostSend_run ht _ _ _) ?_)
  rw [if_neg (by decide)]
  exact nonEventFill h ht.tail hc (by decide) rfl rfl
    ((Quiet.buildSendv cfg w .mpIsendv c .send .pendingNowait v reg).trans (.accept _ c .tx _)) _

theorem mpIrecvv (v : List Iovec) (peer : Nat) (reg : Reg) : Serves cfg w (mpIrecvv cfg v peer reg) ⟨w, tape⟩ := by
  refine .ite (fun _ => .pure (.quiet h (.refl w))) fun _ => .clientOf fun c hc =>
    .start (.step (gdsPostRecv_run ht _ _ _) ?_)
  rw [if_neg (by decide)]
  exact nonEventFill h ht.tail hc (by decide) rfl rfl
    ((Quiet.buildRecvv cfg w .mpIrecvv c .recv .pendingNowait v reg).trans (.accept _ c .rx _)) _

theorem mpIput (src : Nat) (size : Int) (reg : Reg) (peer displ : Nat) (win : Window) (flags : Nat) :
    Serves cfg w (mpIput cfg src size reg peer displ win flags) ⟨w, tape⟩ := by
  refine .ite (fun _ => .pure (.quiet h (.refl w))) fun _ => .clientOf fun c hc => .require (by decide) fun _ => ?_
  refine .start (.step (mpPostSend_run ht _ _ _) ?_)
  rw [if_neg (by decide)]
  have hq := (Quiet.buildPut cfg w .mpIput c .rdma .pendingNowait src size reg displ win flags).trans
    (.accept _ c .tx w.nextFree)
  cases hn : nowait flags with
  | true => exact .pure (.unfilled h hc hq (by decide) (by decide) fun _ => ⟨rfl, hn⟩)
  | false => exact .step (gdsPrepareWaitCq_run ht.tail _ _ _ _) (.pure (.filled h hc hq (by decide) (by decide)))

theorem mpIget (dst : Nat) (size : Int) (reg : Reg) (peer displ : Nat) (win : Window) :
    Serves cfg w (mpIget cfg dst size reg peer displ win) ⟨w, tape⟩ := by
  refine .ite (fun _ => .pure (.quiet h (.refl w))) fun _ => .clientOf fun c hc => .require (by decide) fun _ => ?_
  refine .start (.step (gdsPostSend_run ht _ _ _) ?_)
  rw [if_neg (by decide)]
  have hq := (Quiet.buildGet cfg w .mpIget c .rdma .pendingNowait .wrRdmaRead dst size reg displ win).trans
    (.accept _ c .tx w.nextFree)
  exact .step (gdsPrepareWaitCq_run ht.tail _ _ _ _) (.pure (.filled h hc hq (by decide) (by decide)))

theorem mpIsendvOnStream (v : List Iovec) (peer : Nat) (reg : Reg) (st : Stream) :
    Serves cfg w (mpIsendvOnStream cfg v peer reg st) ⟨w, tape⟩ := by
  have hsame : FillStep cfg w w := .quiet h (.refl w)
  refine .clientOf fun c hc => .ite (fun _ => .pure hsame) fun he => .ite (fun _ => .pure hsame) fun _ => ?_
  refine .start (.step (gdsStreamQueueSend_run ht _ _ _ _) ?_)
  rw [if_neg (by decide)]
  have hq := ((Quiet.buildSendv cfg w .mpIsendvOnStream c .send .pendingNowait v reg).trans
    (.accept _ c .tx w.nextFree)).trans (.enqueue _ st [.queueSend w.nextFree])
  exact .step (gdsPrepareWaitCq_run ht.tail _ _ _ _) (.pure (.filled h hc hq (by decide) (by decide)))

theorem mpIsendOnStream (buf : Nat) (size : Int) (peer : Nat) (reg : Reg) (st : Stream) :
    Serves cfg w (mpIsendOnStream cfg buf size peer reg st) ⟨w, tape⟩ := by
  refine .clientOf fun c hc => .ite (fun he => .start ?_) fun _ => .start ?_
  · have hq := Quiet.buildSend cfg w .mpIsendOnStream c .send .prepared buf size reg
    refine andQuietly (.unfilled h hc hq (by decide) (by decide) (by simp [Fn.preparesWait, he])) ?_
    refine .bind (Stays.update fun w => .stamp w c .tx _) fun _ => .bind (Stays.request _) fun _ =>
      .bind Stays.returnCode fun _ => ?_
    refine .ite (.pure _) (.bind (Quietly.gdsStreamPostDescriptors st _) fun _ => .ite (.pure _) ?_)
    exact .bind (Quietly.clientTrackPostedStreamReq c _ .tx st) fun _ => .pure _
  · refine .step (mpPostSendOnStream_run ht _ _ _ _) ?_
    rw [if_neg (by decide)]
    have hq := ((Quiet.buildSend cfg w .mpIsendOnStream c .send .pendingNowait buf size reg).trans
      (.accept _ c .tx w.nextFree)).trans (.enqueue _ st [.queueSend w.nextFree])
    exact .step (gdsPrepareWaitCq_run ht.tail _ _ _ _) (.pure (.filled h hc hq (by decide) (by decide)))

omit ht in
theorem mpSendOnStream (buf : Nat) (size : Int) (peer : Nat) (reg : Reg) (st : Stream) :
    Serves cfg w (mpSendOnStream cfg buf size peer reg st) ⟨w, tape⟩ := by
  refine .clientOf fun c hc => .ite (fun _ => .start ?_) fun _ => .start ?_
  · have hq := Quiet.buildSend cfg w .mpSendOnStream c .send .prepared buf size reg
    refine andQuietly (.unfilled h hc hq (by decide) (by decide) (by simp [Fn.preparesWait])) ?_
    refine .bind (Stays.update fun w => .stamp w c .tx _) fun _ => .bind (Stays.request _) fun _ =>
      .bind Stays.returnCode fun _ => ?_
    refine .ite (.pure _) (.bind (Quietly.clientTrackPostedStreamReq c _ .tx st) fun _ => ?_)
    refine .bind (Quietly.blockOnCompletion c .tx _ _) fun _ => .ite (.pure _) ?_
    exact .bind (Quietly.gdsStreamPostDescriptors st _) fun _ => .ite (.pure _) (.pure _)
  · have hq := Quiet.buildSend cfg w .mpSendOnStream c .send .pending buf size reg
    refine andQuietly (.unfilled h hc hq (by decide) (by decide) (by simp [Fn.preparesWait])) ?_
    have hqueue : Quietly (gdsStreamQueueSend st c w.nextFree) := Stays.call fun w =>
      (Quiet.accept w c .tx _).trans (.enqueue _ st _)
    have hwait : Quietly (gdsStreamWaitCq st c .tx) := Stays.call fun w => .enqueue w st _
    exact .bind hqueue fun _ => .ite (.pure _) (.bind hwait fun _ => .ite (.pure _) (.pure _))

/-- The end of the prepare calls. -/
theorem prepareInfos {fn : Fn} {c peer : Nat} {w' : World} (hc : cfg.clientIndex peer = some c)
    (hq : Quiet (w.begun cfg fn c .send .prepared 0) w') : Serves cfg w (prepareInfos c w.nextFree) ⟨w', tape⟩ := by
  refine .step (gdsPrepareSend_run ht _ _ _) ?_
  rw [if_neg (by decide)]
  exact .step (gdsPrepareWaitCq_run ht.tail _ _ _ _)
    (.pure (.filled h hc (hq.trans (.fillSend _ c _)) nofun (fun _ => rfl)))

theorem mpSendPrepare (buf : Nat) (size : Int) (peer : Nat) (reg : Reg) :
    Serves cfg w (mpSendPrepare cfg buf size peer reg) ⟨w, tape⟩ := by
  refine .clientOf fun c hc => .start (.ite (fun he => .pure ?_) fun _ => ?_)
  · exact .unfilled h hc (Quiet.buildSend cfg w .mpSendPrepare c .send .prepared buf size reg) (by decide) (by decide)
      (by simp [Fn.preparesWait, he])
  · exact prepareInfos h ht hc (Quiet.buildSend cfg w .mpSendPrepare c .send .prepared buf size reg)

theorem mpSendvPrepare (v : List Iovec) (peer : Nat) (reg : Reg) :
    Serves cfg w (mpSendvPrepare cfg v peer reg) ⟨w, tape⟩ := by
  have hsame : FillStep cfg w w := .quiet h (.refl w)
  refine .clientOf fun c hc => .ite (fun _ => .pure hsame) fun he => .ite (fun _ => .pure hsame) fun _ => .start ?_
  exact prepareInfos h ht hc (Quiet.buildSendv cfg w .mpSendvPrepare c .send .prepared v reg)

theorem mpIgetOnStream (dst : Nat) (size : Int) (reg : Reg) (peer displ : Nat) (win : Window) (st : Stream) :
    Serves cfg w (mpIgetOnStream cfg dst size reg peer displ win st) ⟨w, tape⟩ := by
  refine .ite (fun _ => .pure (.quiet h (.refl w))) fun _ => .clientOf fun c hc => .require (by decide) fun _ => ?_
  refine .start (.step (gdsStreamQueueSend_run ht _ _ _ _) ?_)
  rw [if_neg (by decide)]
  have hq := ((Quiet.buildGet cfg w .mpIgetOnStream c .rdma .pendingNowait .expWrRdmaRead dst size reg displ win).trans
    (.accept _ c .tx w.nextFree)).trans (.enqueue _ st [.queueSend w.nextFree])
  exact .step (gdsPrepareWaitCq_run ht.tail _ _ _ _) (.pure (.filled h hc hq (by decide) (by decide)))

omit h ht in
/-- An error would put the request back. -/
theorem releaseOnError {m : M Int} {p : Ptr} {w' : World} (tape' : List Ans) (hm : m s = (.ok 0, ⟨w', tape'⟩))
    (hstep : FillStep cfg w w') : Serves cfg w (releaseOnError p m) s :=
  .step hm (.pure hstep)

theorem mpPutPrepare (src : Nat) (size : Int) (reg : Reg) (peer displ : Nat) (win : Window) (flags : Nat) :
    Serves cfg w (mpPutPrepare cfg src size reg peer displ win flags) ⟨w, tape⟩ := by
  refine .ite (fun _ => .pure (.quiet h (.refl w))) fun _ => .clientOf fun c hc => .require (by decide) fun _ =>
    .start ?_
  have hq := (Quiet.buildPut cfg w .mpPutPrepare c .rdma .prepared src size reg displ win flags).trans
    (.fillSend _ c w.nextFree)
  cases hn : nowait flags with
  | true =>
    refine releaseOnError tape.tail ?_ (.unfilled h hc hq (by decide) (by decide) fun _ => ⟨rfl, hn⟩)
    rw [Prog.bind_ok (gdsPrepareSend_run ht _ _ _)]
    rfl
  | false =>
    refine releaseOnError tape.tail.tail ?_ (.filled h hc hq (by decide) (by decide))
    rw [Prog.bind_ok (gdsPrepareSend_run ht _ _ _)]
    exact gdsPrepareWaitCq_run ht.tail _ _ _ _

theorem mpIputOnStream (src : Nat) (size : Int) (reg : Reg) (peer displ : Nat) (win : Window) (flags : Nat)
    (st : Stream) : Serves cfg w (mpIputOnStream cfg src size reg peer displ win flags st) ⟨w, tape⟩ := by
  refine .ite (fun _ => .pure (.quiet h (.refl w))) fun _ => .clientOf fun c hc => .require (by decide) fun _ =>
    .start ?_
  have hq := ((Quiet.buildPut cfg w .mpIputOnStream c .rdma .pendingNowait src size reg displ win flags).trans
    (.accept _ c .tx w.nextFree)).trans (.enqueue _ st [.queueSend w.nextFree])
  cases hn : nowait flags with
  | true =>
    have hn' : State.complete ≠ .pendingNowait := by decide
    refine releaseOnError tape.tail ?_ (.unfilled h hc (hq.trans (.setStatus _ w.nextFree hn' (by decide)))
      (by decide) (by decide) fun _ => ⟨rfl, hn⟩)
    rw [Prog.bind_ok (mpPostSendOnStream_run ht _ _ _ _)]
    rfl
  | false =>
    refine releaseOnError tape.tail.tail ?_ (.filled h hc hq (by decide) (by decide))
    rw [Prog.bind_ok (mpPostSendOnStream_run ht _ _ _ _)]
    exact gdsPrepareWaitCq_run ht.tail _ _ _ _

end Succeeds

/-! The posts of prepared requests. -/

/-- The loop of `mp_send_post_all_on_stream` comes back if all are prepared. -/
theorem copyInfos {tape : List Ans} (ps : List Ptr) : Lands cfg w (copyInfos ps)
    (fun _ s' => s' = ⟨w, tape⟩ ∧ ∀ p ∈ ps, (w.mem p).status = .prepared) ⟨w, tape⟩ := by
  induction ps with
  | nil => exact .pure ⟨rfl, by simp⟩
  | cons p rest ih =>
    refine .step (request_run p w tape)
      (.require (by decide) fun hp => .bind ih fun x s' ⟨hs', hrest⟩ => .pure ⟨hs', ?_⟩)
    intro q hq
    rcases List.mem_cons.mp hq with rfl | hq
    · exact of_decide_eq_true hp
    · exact hrest q hq

/-- The loop of the batched posts. -/
theorem startAll {o : Option Stream} {ps : List Ptr} {w' : World} {tape : List Ans} (h : FillStep cfg w w')
    (hps : ∀ p ∈ ps, Pendable cfg w' p) : Lands cfg w (startAll o ps) (fun _ s' => FillStep cfg w s'.w) ⟨w', tape⟩ := by
  induction ps generalizing w' with
  | nil => exact .pure h
  | cons p rest ih =>
    refine .step (request_run p w' tape)
      (.require (by decide) fun hp => .step (update_run _ _ _) (.bind (ih ?_ ?_) fun _ _ hs => .pure hs))
    · exact h.pend (hps p List.mem_cons_self) (of_decide_eq_true hp) ⟨rfl, rfl, rfl, rfl, rfl, rfl⟩
    · intro q hq
      exact (hps q (List.mem_cons_of_mem p hq)).setReq ⟨rfl, rfl, rfl, rfl, rfl, rfl⟩ nofun

section Posts
variable {tape : List Ans} (h : FillInv cfg none w) (ht : Succeeds tape)
include h ht

theorem mpSendPostOnStream (he : cfg.useEventSync = false) {p : Ptr} (hp : SendHandle w p) (hs : ¬ Spent w p)
    (st : Stream) : Serves cfg w (mpSendPostOnStream cfg p st) ⟨w, tape⟩ := by
  refine .step (request_run p w tape) (.require (by decide) fun _ => .clientOf fun c hc => .step (update_run _ _ _) ?_)
  rw [if_neg (by simp [he])]
  have hsend := gdsStreamPostSendAll_run ht st [(w.mem p).gdsSendInfo] (w.markPosted p st .pending)
  rw [← World.markPosted_two] at hsend
  refine .step (update_run _ _ _) (.step hsend ?_)
  rw [if_neg (by decide), World.markPosted_two]
  have hmark : Quiet w (w.markPosted p st .pending) := .pends w p (some st)
  have hq := (hmark.trans (.launchAll _ [(w.mem p).gdsSendInfo])).trans
    (.enqueue _ st ([(w.mem p).gdsSendInfo].map .send))
  refine .done (gdsStreamPostWaitCq_run ht.tail st p _)
    (FillStep.andQuiet (FillStep.give (.quiet h hq) ?_) (.enqueue _ st _))
  have hmem : ((launchAll (w.markPosted p st .pending) [(w.mem p).gdsSendInfo]).enqueue st
      ([(w.mem p).gdsSendInfo].map .send)).mem p = { w.mem p with stream := some st, status := .pending } := by
    rw [World.enqueue_mem, launchAll_mem]
    simp [World.markPosted]
  have hown := h.own_of_sendHandle he hp
  refine .of_pending ?_ hown (fun i hi => ?_) (by rw [hmem])
  · rw [hmem]
    exact .pends _ _
  · rw [hq.serials]
    exact h.unspent hown hs hi

theorem mpIsendPostOnStream (he : cfg.useEventSync = false) {p : Ptr} (hp : SendHandle w p) (hs : ¬ Spent w p)
    (st : Stream) : Serves cfg w (mpIsendPostOnStream cfg p st) ⟨w, tape⟩ := by
  refine .step (request_run p w tape) (.require (by decide) fun hprep => .step (update_run _ _ _) ?_)
  rw [if_neg (by simp [he])]
  refine .step (update_run _ _ _) (.done (gdsStreamPostSendAll_run ht st _ _) ?_)
  rw [World.markPosted_two]
  have hmark : FillStep cfg w (w.markPosted p st .pendingNowait) :=
    FillStep.pend (.quiet h (.refl w)) (.of_sendHandle h hp hs) (of_decide_eq_true hprep) ⟨rfl, rfl, rfl, rfl, rfl, rfl⟩
  exact hmark.andQuiet ((Quiet.launchAll _ _).trans (.enqueue _ st _))

theorem mpSendPostAllOnStream (he : cfg.useEventSync = false) {ps : List Ptr} (hnd : ps.Nodup)
    (hps : ∀ p ∈ ps, SendHandle w p ∧ ¬ Spent w p) (st : Stream) :
    Serves cfg w (mpSendPostAllOnStream cfg ps st) ⟨w, tape⟩ := by
  unfold LibMp.mpSendPostAllOnStream
  rw [if_neg (by simp [he])]
  refine .bind (copyInfos ps) fun x s' ⟨hs', hprep⟩ => ?_
  subst hs'
  refine .step (gdsStreamPostSendAll_run ht st x.1 w) ?_
  rw [if_neg (by decide)]
  have hq := (Quiet.launchAll w x.1).trans (.enqueue _ st (x.1.map .send))
  have hmem : ((launchAll w x.1).enqueue st (x.1.map .send)).mem = w.mem := by rw [World.enqueue_mem, launchAll_mem]
  refine .done (gdsStreamPostWaitCqAll_run ht.tail st ps _ _)
    (FillStep.andQuiet (FillStep.giveAll (.quiet h hq) hnd fun p hp => ?_) (.enqueue _ st _))
  obtain ⟨hsend, hs⟩ := hps p hp
  have hown := h.own_of_sendHandle he hsend
  refine ⟨?_, hown, fun i hi => ?_, ?_, fun _ => ?_⟩
  · rw [hmem]
    exact .refl _
  · rw [hq.serials]
    exact h.unspent hown hs hi
  · rw [hmem, hprep p hp]
    exact nofun
  · rw [hmem]
    rcases hsend with hsend | hsend <;> rw [hsend] <;> decide

omit ht in
/-- A batched post. -/
theorem postAll {ps : List Ptr} (hps : ∀ p ∈ ps, Pendable cfg w p) (o : Option Stream) (st : Stream) :
    Serves cfg w (LibMp.startAll o ps >>= gdsStreamPostSendAll st) ⟨w, tape⟩ := by
  refine .bind (startAll (.quiet h (.refl w)) hps) fun x s' hs => ?_
  exact andQuietly hs (Quietly.gdsStreamPostSendAll st x)

omit ht in
theorem mpIsendPostAllOnStream (he : cfg.useEventSync = false) {ps : List Ptr}
    (hps : ∀ p ∈ ps, SendHandle w p ∧ ¬ Spent w p)
    (st : Stream) : Serves cfg w (mpIsendPostAllOnStream cfg ps st) ⟨w, tape⟩ := by
  unfold LibMp.mpIsendPostAllOnStream
  rw [if_neg (by simp [he])]
  exact postAll h (fun p hp => .of_sendHandle h (hps p hp).1 (hps p hp).2) (some st) st

omit ht in
theorem mpIputPostAllOnStream {ps : List Ptr} (hps : ∀ p ∈ ps, (w.mem p).owner = some .mpPutPrepare) (st : Stream) :
    Serves cfg w (mpIputPostAllOnStream ps st) ⟨w, tape⟩ :=
  postAll h (fun p hp => .of_putHandle h (hps p hp)) none st

theorem mpIputPostOnStream {p : Ptr} (hp : (w.mem p).owner = some .mpPutPrepare) (st : Stream) :
    Serves cfg w (mpIputPostOnStream p st) ⟨w, tape⟩ := by
  refine .step (request_run p w tape) (.require (by decide) fun hprep => .step (gdsStreamPostSendAll_run ht st _ _) ?_)
  rw [if_neg (by decide)]
  have hq := (Quiet.launchAll w [(w.mem p).gdsSendInfo]).trans (.enqueue _ st ([(w.mem p).gdsSendInfo].map .send))
  have hmem : ((launchAll w [(w.mem p).gdsSendInfo]).enqueue st ([(w.mem p).gdsSendInfo].map .send)).mem = w.mem := by
    rw [World.enqueue_mem, launchAll_mem]
  refine .step (update_run _ _ _) (.pure ?_)
  split
  · have hdone : State.complete ≠ .pendingNowait := by decide
    exact (FillStep.quiet h hq).andQuiet (.setStatus _ p hdone (by decide))
  · have hput : Pendable cfg
        ((launchAll w [(w.mem p).gdsSendInfo]).enqueue st ([(w.mem p).gdsSendInfo].map .send)) p := by
      apply Pendable.of_putHandle (h.quiet hq)
      rw [hmem]
      exact hp
    refine (FillStep.quiet h hq).pend (g := fun r => { r with status := .pendingNowait }) hput ?_
      ⟨rfl, rfl, rfl, rfl, rfl, rfl⟩
    rw [hmem]
    exact of_decide_eq_true hprep

end Posts

/-! The waits. -/

/-- The loop of `mp_wait_all_on_stream`. -/
theorem waitAllCopy {ps : List Ptr} {st : Stream} {w' : World} {tape : List Ans} :
    Lands cfg w (waitAllCopy st ps) (fun x s' => s'.tape = tape ∧ Marked ps w' s'.w x.1) ⟨w', tape⟩ := by
  induction ps generalizing w' with
  | nil => exact .pure ⟨rfl, .refl w', rfl, fun _ => .refl _, fun _ => .inl rfl, fun _ => ⟨.nil, by simp⟩⟩
  | cons p rest ih =>
    refine .step (request_run p w' tape)
      (.require (by decide) fun _ => .ite (fun _ => ?_) fun hcan => .require (by decide) fun hst => ?_)
    · exact .pure ⟨rfl, .refl w', rfl, fun _ => .refl _, fun _ => .inl rfl, fun h => by cases h⟩
    · refine .step (update_run _ _ _) (.bind ih fun x s' ⟨htape, hs⟩ => .pure ⟨htape, hs.cons ?_ ?_⟩)
      · simpa using hcan
      · simpa using hst

/-- The first loop of `mp_wait_all`. -/
theorem postWaits {ps : List Ptr} {w' : World} {tape : List Ans} (ht : Succeeds tape) (h : FillStep cfg w w')
    (hall : ∀ q, (w.mem q).SameWait (w'.mem q))
    (hown : ∀ p ∈ ps, (w.mem p).status = .pendingNowait → (w.mem p).canBeWaited = true → Own cfg w p) :
    Serves cfg w (postWaits cfg ps) ⟨w', tape⟩ := by
  induction ps generalizing w' tape with
  | nil => exact .pure h
  | cons p rest ih =>
    have hrest := fun q hq => hown q (List.mem_cons_of_mem p hq)
    refine .step (request_run p w' tape)
      (.require (by decide) fun _ => .ite (fun _ => .pure h) fun hcan => .ite (fun hst => ?_) fun _ => ?_)
    · have hw : (w.mem p).canBeWaited = true := by
        rw [← (hall p).canBeWaited]
        simpa using hcan
      have hp := hown p List.mem_cons_self ((hall p).nowait hst) hw
      have hself : ((w'.setReq p fun r => { r with stream := none, status := .pending }).mem p).status = .pending := by
        simp
      have hsame : ∀ q, (w.mem q).SameWait
          ((w'.setReq p fun r => { r with stream := none, status := .pending }).mem q) := by
        intro q
        exact (hall q).trans (.setReq (.pends _ none) q)
      refine .clientOf fun c _ => .step (gdsPostWaitCq_run ht p w') ?_
      rw [if_neg (by decide)]
      refine .step (update_run _ _ _) ?_
      rw [World.give_setReq w' p rfl rfl]
      refine ih ht.tail (FillStep.give (h.andQuiet (.pends w' p none))
        (.of_pending (hsame p) hp (fun i hi => ?_) hself)) hsame hrest
      rw [← (hall p).info] at hi
      exact h.inv.fresh p i (by simp) (.inl hst) ((hall p).own.mpr hp) hi
    · exact ih ht h hall hrest

section Waits
variable {tape : List Ans} (h : FillInv cfg none w) (ht : Succeeds tape)
include h ht

theorem mpWaitAll {ps : List Ptr} (hps : cfg.useEventSync = true → ∀ p ∈ ps, (w.mem p).status = .pendingNowait →
    MadePreparing cfg w p) : Serves cfg w (mpWaitAll cfg ps) ⟨w, tape⟩ := by
  refine .bind (postWaits ht (.quiet h (.refl w)) (fun _ => .refl _) fun p hp hst hw => ?_) fun x s' hs => ?_
  · cases he : cfg.useEventSync with
    | true => exact h.own_of_canBeWaited (hps he p hp hst) hw
    | false => exact h.own_of_nowait he hst hw
  · exact andQuietly hs (.ite (.pure _) (.bind (progressive_quiet.spinAll ps) fun _ => .ite (.pure _)
      (Quietly.releaseAll 0 ps)))

variable (he : cfg.useEventSync = false)
include he

theorem mpWaitOnStream {p : Ptr} (hp : (w.mem p).status = .complete →
    ¬ Spent w p ∧ MadePreparing cfg w p) (st : Stream) :
    Serves cfg w (mpWaitOnStream cfg p st) ⟨w, tape⟩ := by
  refine .step (request_run p w tape) (.clientOf fun c _ => .require (by decide) fun _ => ?_)
  rw [if_neg (by simp [he])]
  refine .ite (fun _ => .pure (.quiet h (.refl w))) fun hcan => .require (by decide) fun hst =>
    .step (update_run _ _ _) ?_
  obtain ⟨hown, hfresh⟩ := h.own_of_streamWait he (by simpa using hcan) (by simpa using hst) hp
  have hgive : FillStep.Giveable cfg w (w.setReq p fun r => { r with stream := some st, status := .pending }) p :=
    .of_pending (.setReq (.pends _ (some st)) p) hown hfresh (by simp)
  exact .done (gdsStreamPostWaitCq_run ht st p _)
    (FillStep.andQuiet (FillStep.give (.quiet h (.pends w p (some st))) hgive) (.enqueue _ st _))

theorem mpWaitAllOnStream {ps : List Ptr} (hps : ∀ p ∈ ps, (w.mem p).status = .complete →
    ¬ Spent w p ∧ MadePreparing cfg w p) (st : Stream) :
    Serves cfg w (mpWaitAllOnStream cfg ps st) ⟨w, tape⟩ := by
  unfold LibMp.mpWaitAllOnStream
  rw [if_neg (c := cfg.useEventSync = true) (by simp [he])]
  refine .ite (fun _ => .pure (.quiet h (.refl w))) fun _ => .bind waitAllCopy fun x s' ⟨htape, hm⟩ => ?_
  have hstep := FillStep.quiet h hm.quiet
  refine .ite (fun _ => .pure hstep) fun h0 => ?_
  obtain ⟨w', tape'⟩ := s'
  obtain rfl : tape' = tape := htape
  obtain ⟨hnd, hall⟩ := hm.all (by simpa using h0)
  refine .done (gdsStreamPostWaitCqAll_run ht st ps _ _)
    (FillStep.andQuiet (hstep.giveAll hnd fun p hp => ?_) (.enqueue _ st _))
  obtain ⟨hcan, hst, hpending⟩ := hall p hp
  obtain ⟨hown, hfresh⟩ := h.own_of_streamWait he hcan hst (hps p hp)
  refine .of_pending (hm.same p) hown (fun i hi => ?_) hpending
  rw [show w'.log = w.log from hm.log]
  exact hfresh i hi

end Waits

end Serves

/-! ## Runs -/

theorem Serves.only {w : World} {m : M Int} {s : Sys} (h : Serves cfg w m s) : Serves cfg w (LibMp.only m) s :=
  Comes.only h

/-- What an event leaves. -/
theorem Serves.exec {w : World} {op : Op} {tape : List Ans} (hs : Serves cfg w (op.run cfg) ⟨w, tape⟩)
    (ha : alive (op.exec cfg tape w).1) : FillStep cfg w (op.exec cfg tape w).2 :=
  Comes.exec hs (fun u s ps hu => hu.andQuiet (.noteWaits u s ps)) ha

/-- The calls that make requests, post them and wait for them, with the outside
making no errors. The posts get the handles of their own prepare calls. -/
def FillCalls : Event → World → Prop
  | .call op tape, w => Succeeds tape ∧
    match op with
    | .isend .. | .irecv .. | .isendv .. | .irecvv .. | .iput .. | .iget .. | .sendOnStream .. | .isendOnStream ..
    | .isendvOnStream .. | .sendPrepare .. | .sendvPrepare .. | .putPrepare .. | .iputOnStream .. | .igetOnStream ..
    | .waitOnStream .. | .waitAllOnStream .. | .waitAll _ | .progressAll _ | .progress _ => True
    | .sendPost p _ | .isendPost p _ => SendHandle w p
    | .sendPostAll ps _ | .isendPostAll ps _ => ∀ p ∈ ps, SendHandle w p
    | .iputPost p _ => (w.mem p).owner = some .mpPutPrepare
    | .iputPostAll ps _ => ∀ p ∈ ps, (w.mem p).owner = some .mpPutPrepare
    | _ => False
  | .gpu _, _ | .work _ _, _ => True

/-- With event sync the CPU waits for puts and gets only. Without, what a
blocking call has sent is neither posted again nor waited for on a stream. -/
def FillsReady (cfg : Config) : Event → World → Prop
  | .call op _, w =>
    match op with
    | .waitAll ps => cfg.useEventSync = true → ∀ p ∈ ps, (w.mem p).status = .pendingNowait → MadePreparing cfg w p
    | .waitOnStream p _ => cfg.useEventSync = false → (w.mem p).status = .complete → ¬ Spent w p ∧ MadePreparing cfg w p
    | .waitAllOnStream ps _ =>
      cfg.useEventSync = false → ∀ p ∈ ps, (w.mem p).status = .complete → ¬ Spent w p ∧ MadePreparing cfg w p
    | .sendPost p _ | .isendPost p _ => cfg.useEventSync = false → ¬ Spent w p
    | .sendPostAll ps _ => cfg.useEventSync = false → ps.Nodup ∧ ∀ p ∈ ps, ¬ Spent w p
    | .isendPostAll ps _ => cfg.useEventSync = false → ∀ p ∈ ps, ¬ Spent w p
    | _ => True
  | _, _ => True

/-- One call. -/
theorem Serves.call {w : World} {op : Op} {tape : List Ans} (h : FillInv cfg none w) (hev : FillCalls (.call op tape) w)
    (hready : FillsReady cfg (.call op tape) w) : Serves cfg w (op.run cfg) ⟨w, tape⟩ := by
  obtain ⟨ht, hev⟩ := hev
  cases op with
  | isend buf size peer reg => exact .mpIsend h ht ..
  | irecv buf size peer reg => exact .mpIrecv h ht ..
  | isendv v peer reg => exact .mpIsendv h ht ..
  | irecvv v peer reg => exact .mpIrecvv h ht ..
  | iput src size reg peer displ win flags => exact .mpIput h ht ..
  | iget dst size reg peer displ win => exact .mpIget h ht ..
  | sendOnStream buf size peer reg s => exact .mpSendOnStream h ..
  | isendOnStream buf size peer reg s => exact .mpIsendOnStream h ht ..
  | isendvOnStream v peer reg s => exact .mpIsendvOnStream h ht ..
  | sendPrepare buf size peer reg => exact .mpSendPrepare h ht ..
  | sendvPrepare v peer reg => exact .mpSendvPrepare h ht ..
  | putPrepare src size reg peer displ win flags => exact .mpPutPrepare h ht ..
  | iputOnStream src size reg peer displ win flags s => exact .mpIputOnStream h ht ..
  | igetOnStream dst size reg peer displ win s => exact .mpIgetOnStream h ht ..
  | progress f => exact .only (.quietly h (progressive_quiet.mpProgressSingleFlow f) tape)
  | progressAll ps => exact .only (.quietly h (progressive_quiet.progressAllFrom 0 ps) tape)
  | waitAll ps => exact .only (.mpWaitAll h ht hready)
  | iputPost p s => exact .only (.mpIputPostOnStream h ht hev s)
  | iputPostAll ps s => exact .only (.mpIputPostAllOnStream h hev s)
  | sendPost p s =>
    cases he : cfg.useEventSync with
    | true => exact .only (.quietly h (Quietly.mpSendPostOnStream he p s) tape)
    | false => exact .only (.mpSendPostOnStream h ht he hev (hready he) s)
  | isendPost p s =>
    cases he : cfg.useEventSync with
    | true => exact .only (.quietly h (Quietly.mpIsendPostOnStream he p s) tape)
    | false => exact .only (.mpIsendPostOnStream h ht he hev (hready he) s)
  | sendPostAll ps s =>
    cases he : cfg.useEventSync with
    | true => exact .only (.quietly h (Quietly.mpSendPostAllOnStream he ps s) tape)
    | false => exact .only (.mpSendPostAllOnStream h ht he (hready he).1 (fun p hp => ⟨hev p hp, (hready he).2 p hp⟩) s)
  | isendPostAll ps s =>
    cases he : cfg.useEventSync with
    | true => exact .only (.quietly h (Quietly.mpIsendPostAllOnStream he ps s) tape)
    | false => exact .only (.mpIsendPostAllOnStream h he (fun p hp => ⟨hev p hp, hready he p hp⟩) s)
  | waitOnStream p s =>
    cases he : cfg.useEventSync with
    | true => exact .only (.quietly h (Quietly.mpWaitOnStream he p s) tape)
    | false => exact .only (.mpWaitOnStream h ht he (hready he) s)
  | waitAllOnStream ps s =>
    cases he : cfg.useEventSync with
    | true => exact .only (.quietly h (Quietly.mpWaitAllOnStream he ps s) tape)
    | false => exact .only (.mpWaitAllOnStream h ht he (hready he) s)
  | _ => exact hev.elim

theorem FillStep.event {w : World} {ev : Event} (h : FillInv cfg none w) (hev : FillCalls ev w)
    (hready : FillsReady cfg ev w) (ha : alive (ev.exec cfg w).1) : FillStep cfg w (ev.exec cfg w).2 := by
  cases ev with
  | call op tape => exact (Serves.call h hev hready).exec ha
  | gpu g => exact .quiet h (.gpu w g)
  | work s tag => exact .quiet h (.enqueue w s _)

theorem FillInv.of_reach {w : World} (h : Reach cfg (fun ev w => FillCalls ev w ∧ FillsReady cfg ev w) w) :
    FillInv cfg none w := by
  induction h with
  | init => exact .init
  | step ev hw hok ha ih => exact (FillStep.event ih hok.1 hok.2 ha).inv

/-- No fill is given away twice; and what a call gives away was filled for the
operation of the request, so since the request was taken: a request that was
just taken holds no fill of its own. -/
theorem fills_given_once {w : World} (h : Reach cfg (fun ev w => FillCalls ev w ∧ FillsReady cfg ev w) w) :
    (givenSerials w.log).Nodup ∧
    (∀ ev, FillCalls ev w → FillsReady cfg ev w → alive (ev.exec cfg w).1 →
      Adds (LogEv.GivesOwn cfg w) w (ev.exec cfg w).2) ∧
    ∀ fn c type st, cfg.clientIndex (cfg.mpiRank c) = some c →
      ¬ Own cfg (w.take fn c (cfg.mpiRank c) type st) w.nextFree := by
  have hinv := FillInv.of_reach h
  refine ⟨hinv.once, fun ev hev hready ha => (FillStep.event hinv hev hready ha).gives, fun fn c type st hc hown => ?_⟩
  apply hinv.not_own_begun fn type st 0 hc
  simpa [Own, World.begun] using hown

/-- A send that the CPU has waited for, without event sync, and one that it waits
for next: the same request, with another fill. -/
theorem fills_given_once_of_wait :
    ∃ w, Reach onePeer (fun ev w => FillCalls ev w ∧ FillsReady onePeer ev w) w ∧ givenSerials w.log = [0] ∧
      (givenSerials w.log).Nodup ∧
      Adds (LogEv.GivesOwn onePeer w) w ((Event.call (.waitAll [0]) [{}, { picks := [0] }]).exec onePeer w).2 := by
  have hr : Reach onePeer (fun ev w => FillCalls ev w ∧ FillsReady onePeer ev w)
      (World.init.after onePeer [isendOne, .call (.waitAll [0]) [{}, { picks := [0] }], isendOne]) :=
    Reach.init.after onePeer ⟨⟨⟨by simp [Succeeds], trivial⟩, trivial⟩, by decide,
      ⟨⟨by simp [Succeeds], trivial⟩, fun he => by cases he⟩, by decide,
      ⟨⟨by simp [Succeeds], trivial⟩, trivial⟩, by decide, trivial⟩
  obtain ⟨hnd, hgives, -⟩ := fills_given_once hr
  exact ⟨_, hr, by decide, hnd, hgives _ ⟨by simp [Succeeds], trivial⟩ (fun he => by cases he) (by decide)⟩

/-- With event sync `mp_isend` prepares no wait info, and `mp_wait` gives it away. -/
theorem event_wait_gives_unfilled :
    ∃ w, Reach eventPeer FillCalls w ∧ w.log = [.accepted 0 .tx 0 1] ∧
      ((Event.call (.waitAll [0]) [{}, { picks := [0] }]).exec eventPeer w).1 = .ok (0, none) ∧
      .given 0 1 none ∈ ((Event.call (.waitAll [0]) [{}, { picks := [0] }]).exec eventPeer w).2.log ∧
      ¬ Adds (LogEv.GivesOwn eventPeer w) w
        ((Event.call (.waitAll [0]) [{}, { picks := [0] }]).exec eventPeer w).2 := by
  have hr : Reach eventPeer FillCalls (World.init.after eventPeer [isendOne]) :=
    Reach.init.after eventPeer ⟨⟨by simp [Succeeds], trivial⟩, by decide, trivial⟩
  have hgiven : .given 0 1 none ∈ newLog (World.init.after eventPeer [isendOne])
      ((Event.call (.waitAll [0]) [{}, { picks := [0] }]).exec eventPeer
        (World.init.after eventPeer [isendOne])).2 := by decide
  refine ⟨_, hr, by decide, by decide, by decide, fun hadds => ?_⟩
  obtain ⟨⟨n, c, hi, -⟩, -, hinfo⟩ := hadds.newLog _ hgiven
  rw [← hinfo] at hi
  cases hi

end LibMp
