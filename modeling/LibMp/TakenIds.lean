import LibMp.Batch
import LibMp.Carried

/- Ids are taken before they are posted, whatever is called.

   A client counts the ids of its requests, and nothing but taking a request
   moves the counter; only the sends on streams note an id as posted, and it is
   the id of a request of that client. The invariant holds in every run of any
   calls, with any arguments, in both modes. -/
namespace LibMp
variable {cfg : Config}

/-! ## What changes no id -/

/-- Requests and clients keep their ids. -/
structure SameIds (w w' : World) : Prop where
  peer : ∀ p, (w'.mem p).peer = (w.mem p).peer
  id : ∀ p, (w'.mem p).id = (w.mem p).id
  taken : ∀ c, (w'.clients c).lastReqId = (w.clients c).lastReqId
  posted : ∀ c, (w'.clients c).lastPostedTriggerId = (w.clients c).lastPostedTriggerId

instance : IsPreorder World SameIds where
  refl _ := ⟨fun _ => rfl, fun _ => rfl, fun _ => rfl, fun _ => rfl⟩
  trans _ _ _ h h' := ⟨fun p => (h'.peer p).trans (h.peer p), fun p => (h'.id p).trans (h.id p),
    fun c => (h'.taken c).trans (h.taken c), fun c => (h'.posted c).trans (h.posted c)⟩

namespace SameIds
variable {w w₁ w' : World}

theorem of_eq (hm : w'.mem = w.mem) (hc : w'.clients = w.clients) : SameIds w w' := by
  refine ⟨?_, ?_, ?_, ?_⟩ <;> intro x <;> simp [hm, hc]

theorem addLog (w : World) (e : LogEv) : SameIds w (w.addLog e) := of_eq rfl rfl

theorem enqueue (w : World) (s : Stream) (ops : List StreamOp) : SameIds w (w.enqueue s ops) := of_eq rfl rfl

/-- The links of the requests and what the posted lists start and end with
change. -/
theorem relinked (hm : ∀ q, ∃ n v, w'.mem q = { w.mem q with next := n, prev := v })
    (hc : ∀ d, ∃ x y, w'.clients d = { w.clients d with postedStreamReq := x, lastPostedStreamReq := y }) :
    SameIds w w' := by
  refine ⟨fun q => ?_, fun q => ?_, fun d => ?_, fun d => ?_⟩
  · obtain ⟨n, v, hq⟩ := hm q
    rw [hq]
  · obtain ⟨n, v, hq⟩ := hm q
    rw [hq]
  · obtain ⟨x, y, hd⟩ := hc d
    rw [hd]
  · obtain ⟨x, y, hd⟩ := hc d
    rw [hd]

theorem setReq (w : World) (p : Ptr) {g : Request → Request} (hp : (g (w.mem p)).peer = (w.mem p).peer)
    (hi : (g (w.mem p)).id = (w.mem p).id) : SameIds w (w.setReq p g) := by
  refine ⟨fun q => ?_, fun q => ?_, fun _ => rfl, fun _ => rfl⟩
  · exact w.setReq_rel (R := fun r r' => r'.peer = r.peer) (fun _ => rfl) hp q
  · exact w.setReq_rel (R := fun r r' => r'.id = r.id) (fun _ => rfl) hi q

theorem setClient (w : World) (c : Nat) {g : Client → Client}
    (ht : (g (w.clients c)).lastReqId = (w.clients c).lastReqId)
    (hp : (g (w.clients c)).lastPostedTriggerId = (w.clients c).lastPostedTriggerId) : SameIds w (w.setClient c g) := by
  refine ⟨fun _ => rfl, fun _ => rfl, fun d => ?_, fun d => ?_⟩
  · exact w.setClient_rel (R := fun a b => b.lastReqId = a.lastReqId) (fun _ => rfl) ht d
  · exact w.setClient_rel (R := fun a b => b.lastPostedTriggerId = a.lastPostedTriggerId) (fun _ => rfl) hp d

theorem gpu (w : World) (g : Gpu) : SameIds w (w.gpu g) := by
  cases g with
  | run s =>
    show SameIds w (w.gpuStep s)
    refine ⟨fun q => ?_, fun q => ?_, fun d => ?_, fun d => ?_⟩
    · rw [World.gpuStep_mem]
    · rw [World.gpuStep_mem]
    · obtain ⟨x, y, hd⟩ := w.gpuStep_clients s d
      rw [hd]
    · obtain ⟨x, y, hd⟩ := w.gpuStep_clients s d
      rw [hd]
  | store c v =>
    show SameIds w (w.setClient c fun cl => { cl with lastTriggerId := Function.update cl.lastTriggerId .tx v })
    exact setClient w c rfl rfl

theorem handOver (w : World) (c : Nat) (f : Flow) (p : Ptr) : SameIds w (w.handOver c f p) := by
  have hst : ∀ u : World, SameIds u (u.setStatus p .pending) := fun u => setReq u p rfl rfl
  refine trans_of SameIds (trans_of SameIds (of_eq rfl rfl) (hst _)) (relinked ?_ ?_)
  · exact fun q => World.delink_links q
  · exact fun d => World.delink_heads d

theorem progressRequest (w : World) (p : Ptr) : SameIds w (w.progressRequest p) := by
  unfold World.progressRequest
  split
  · exact setReq w p rfl rfl
  · exact setReq w p rfl rfl
  · exact refl_of SameIds w
  · exact refl_of SameIds w
  · exact refl_of SameIds w

theorem complete (w : World) (c : Nat) (f : Flow) (k : Nat) (wr : Wr) : SameIds w (w.complete cfg c f k wr) := by
  have hdeq : SameIds w (w.dequeue c f k) := of_eq rfl rfl
  have htracked : SameIds (w.dequeue c f k) (if cfg.useEventSync && (w.mem wr.wrId).trigger then
      (w.dequeue c f k).setTracked c f wr.wrId else w.dequeue c f k) := by
    split
    · exact setClient _ c (by rfl) (by rfl)
    · exact refl_of SameIds _
  have hdone : ∀ u : World, SameIds u (u.setDone c wr.wrId) := fun u => setClient u c rfl rfl
  refine trans_of SameIds (trans_of SameIds hdeq htracked) ?_
  exact trans_of SameIds (trans_of SameIds (hdone _) (progressRequest _ _)) (addLog _ _)

theorem append (w : World) (c : Nat) (f : Flow) (p : Ptr) : SameIds w (w.append c f p) :=
  relinked (fun q => World.append_links q) (fun d => World.append_heads d)

theorem arm (w : World) (c : Nat) (f : Flow) (p : Ptr) : SameIds w (w.arm c f p) :=
  trans_of SameIds (setReq w p rfl rfl) (setClient _ c rfl rfl)

theorem release (w : World) (p : Ptr) : SameIds w (w.release p) := by
  have hreq : SameIds w (w.setReq p fun r => { r with
      next := w.mpRequestFreeList, prev := none, type := .null, status := .undef, owner := none }) := setReq w p rfl rfl
  refine trans_of SameIds hreq ?_
  exact of_eq rfl rfl

theorem launchAll (w : World) (infos : List (Option SendInfo)) : SameIds w (launchAll w infos) := by
  refine of_eq (launchAll_mem w infos) ?_
  induction infos generalizing w with
  | nil => rfl
  | cons info rest ih =>
    cases info with
    | none => exact ih w
    | some i => exact ih (w.launch i)

theorem noteWaits (w : World) (s : Stream) (ps : List Ptr) : SameIds w (w.noteWaits cfg s ps) := by
  induction ps generalizing w with
  | nil => exact refl_of SameIds w
  | cons p rest ih => exact trans_of SameIds (addLog w _) (ih _)

end SameIds

theorem progressive_sameIds : Progressive cfg SameIds where
  gpu := SameIds.gpu
  accept _ _ _ _ := .of_eq rfl rfl
  enqueue := SameIds.enqueue
  handOver _ := SameIds.handOver
  complete := SameIds.complete

/-! Programs that change no id. -/

section Stays
variable {w : World}

theorem sameIds_gdsPrepareWaitCq (c : Nat) (f : Flow) (p : Ptr) : Stays SameIds (gdsPrepareWaitCq c f p) :=
  Stays.call fun w => by
    refine trans_of SameIds (SameIds.setReq w p
      (g := fun r => { r with gdsWaitInfo := some ⟨w.fills, c, f, r.id⟩ }) rfl rfl) ?_
    exact .of_eq rfl rfl

theorem sameIds_gdsPrepareSend (c : Nat) (p : Ptr) : Stays SameIds (gdsPrepareSend c p) :=
  Stays.call fun w => by
    refine trans_of SameIds (SameIds.setReq w p
      (g := fun r => { r with gdsSendInfo := some ⟨c, r.id, r.inWr⟩ }) rfl rfl) ?_
    exact .addLog _ _

theorem sameIds_gdsStreamPostDescriptors (s : Stream) (ops : List StreamOp) :
    Stays SameIds (gdsStreamPostDescriptors s ops) :=
  Stays.gdsStreamPostDescriptors fun w => .enqueue w s ops

theorem sameIds_gdsStreamPostSendAll (s : Stream) (infos : List (Option SendInfo)) :
    Stays SameIds (gdsStreamPostSendAll s infos) :=
  Stays.call fun w => trans_of SameIds (.launchAll w infos) (.enqueue _ s _)

theorem sameIds_gdsStreamPostWaitCq (s : Stream) (p : Ptr) : Stays SameIds (gdsStreamPostWaitCq s p) :=
  .bind (Stays.update fun w => .addLog w _) fun _ => Stays.call fun w => .enqueue w s _

theorem sameIds_gdsStreamPostWaitCqAll (s : Stream) (ps : List Ptr) (infos : List (Option WaitInfo)) :
    Stays SameIds (gdsStreamPostWaitCqAll s ps infos) :=
  Stays.gdsStreamPostWaitCqAll (fun w _ => .addLog w _) SameIds.enqueue s ps infos

theorem sameIds_clientTrackPostedStreamReq (c : Nat) (p : Ptr) (f : Flow) (s : Stream) :
    Stays SameIds (clientTrackPostedStreamReq c p f s) :=
  Stays.clientTrackPostedStreamReq fun w _ => trans_of SameIds (.append w c f p) (.addLog _ _)

theorem sameIds_blockOnCompletion (c : Nat) (f : Flow) (p : Ptr) (descs : List StreamOp) :
    Stays SameIds (blockOnCompletion c f p descs) :=
  Stays.blockOnCompletion (fun w => .arm w c f p) descs

/-- The status and the stream of a request change. -/
theorem sameIds_touch (p : Ptr) (st : Request → Option Stream) (status : Request → State) :
    Stays SameIds (update fun w => w.setReq p fun r => { r with stream := st r, status := status r }) :=
  Stays.update fun w => .setReq w p rfl rfl

theorem sameIds_setStatus (p : Ptr) (status : State) : Stays SameIds (update fun w => w.setStatus p status) :=
  Stays.update fun w => .setReq w p rfl rfl

theorem sameIds_copyInfos (ps : List Ptr) : Stays SameIds (copyInfos ps) := by
  induction ps with
  | nil => exact .pure _
  | cons p rest ih => exact .bind (Stays.request p) fun _ => .bind (.require _ _) fun _ => .bind ih fun _ => .pure _

theorem sameIds_startAll (st : Option Stream) (ps : List Ptr) : Stays SameIds (startAll st ps) := by
  induction ps with
  | nil => exact .pure _
  | cons p rest ih =>
    refine .bind (Stays.request p) fun _ => .bind (.require _ _) fun _ => .bind (sameIds_touch p _ _) fun _ => ?_
    exact .bind ih fun _ => .pure _

theorem sameIds_postWaits (ps : List Ptr) : Stays SameIds (postWaits cfg ps) := by
  induction ps with
  | nil => exact .pure _
  | cons p rest ih =>
    refine .bind (Stays.request p) fun _ => .bind (.require _ _) fun _ => .ite (.pure _) (.ite ?_ ih)
    refine .bind (Stays.clientOf _) fun _ => .bind ?_ fun _ => .ite (.pure _) (.bind (sameIds_touch p _ _) fun _ => ih)
    exact .bind (Stays.update fun w => .addLog w _) fun _ => Stays.returnCode

end Stays

/-! ## The invariant -/

/-- The ids of the requests of a client are ids it has taken, and so is the last
one it has posted. -/
structure IdsTaken (cfg : Config) (w : World) : Prop where
  taken : ∀ p c, cfg.clientIndex (w.mem p).peer = some c → (w.mem p).id ≤ (w.clients c).lastReqId
  posted : ∀ c f, (w.clients c).lastPostedTriggerId f ≤ (w.clients c).lastReqId

namespace IdsTaken
variable {w w' : World} {c : Nat} {p : Ptr}

theorem init : IdsTaken cfg World.init := by
  constructor
  · intro p c _
    simp only [World.init, World.allocateRequests]
    split <;> exact Nat.zero_le _
  · exact fun _ _ => Nat.zero_le _

theorem frame (h : IdsTaken cfg w) (hs : SameIds w w') : IdsTaken cfg w' := by
  constructor
  · intro p c hc
    rw [hs.peer] at hc
    rw [hs.id, hs.taken]
    exact h.taken p c hc
  · intro c f
    rw [hs.posted, hs.taken]
    exact h.posted c f

/-- A client takes its next id for a request to its own peer. -/
theorem take (h : IdsTaken cfg w) (hc : cfg.clientIndex (cfg.mpiRank c) = some c) (fn : Fn) (type : ReqType)
    (st : State) : IdsTaken cfg (w.take fn c (cfg.mpiRank c) type st) := by
  have hle : ∀ d, (w.clients d).lastReqId ≤ ((w.take fn c (cfg.mpiRank c) type st).clients d).lastReqId := by
    intro d
    rw [World.take_clients]
    split
    · rename_i hd
      subst hd
      exact Nat.le_succ _
    · exact Nat.le_refl _
  constructor
  · intro q d hq
    by_cases hnew : q = w.nextFree
    · obtain ⟨-, hpeer, -, -, -, -, hid⟩ := w.take_mem fn c (cfg.mpiRank c) type st
      rw [hnew, hpeer] at hq
      obtain rfl : c = d := Option.some.inj (hc.symm.trans hq)
      rw [hnew, hid, World.take_clients, if_pos rfl]
    · obtain ⟨n, hn⟩ := w.refill_mem q
      rw [w.take_other _ _ _ _ _ hnew, hn] at hq ⊢
      exact Nat.le_trans (h.taken q d hq) (hle d)
  · intro d f
    refine Nat.le_trans ?_ (hle d)
    have hpost : ((w.take fn c (cfg.mpiRank c) type st).clients d).lastPostedTriggerId =
        (w.clients d).lastPostedTriggerId := by
      rw [World.take_clients]
      split
      · rename_i hd
        rw [hd]
      · rfl
    rw [hpost]
    exact h.posted d f

/-- The id that a client notes is that of a request of its own. -/
theorem stamp (h : IdsTaken cfg w) (hc : cfg.clientIndex (w.mem p).peer = some c) (f : Flow) :
    IdsTaken cfg (w.stamp c f p) := by
  constructor
  · intro q d hq
    refine Nat.le_trans (h.taken q d hq) (Nat.le_of_eq ?_)
    exact w.setClient_rel (R := fun a b => a.lastReqId = b.lastReqId) (fun _ => rfl) rfl d
  · intro d g
    simp only [World.stamp, World.setClient_clients]
    split
    · rename_i hd
      subst hd
      by_cases hg : g = f
      · subst hg
        simpa using h.taken p d hc
      · simpa [hg] using h.posted d g
    · exact h.posted d g

end IdsTaken

/-! ## Programs -/

/-- The program comes back with the invariant, or is in a loop with it. -/
abbrev KeepsTaken {α : Type} (cfg : Config) (m : M α) (s : Sys) : Prop :=
  Comes (IdsTaken cfg) m (fun _ s' => IdsTaken cfg s'.w) s

namespace KeepsTaken
variable {α β : Type} {s s' : Sys}

theorem stays {m : M α} (h : IdsTaken cfg s.w) (hm : Stays SameIds m) : KeepsTaken cfg m s :=
  Prog.Within.wp hm (fun _ _ hs _ => h.frame hs) fun _ _ hs => h.frame hs

theorem pure {x : α} (h : IdsTaken cfg s.w) : KeepsTaken cfg (Pure.pure x : M α) s := h

theorem andThen {m : M α} {f : α → M β} (h : IdsTaken cfg s.w) (hm : Stays SameIds m)
    (hf : ∀ x s', IdsTaken cfg s'.w → KeepsTaken cfg (f x) s') : KeepsTaken cfg (m >>= f) s :=
  Comes.bind (stays h hm) hf

/-- A call takes a request for one of its peers and fills it in. -/
theorem start {fn : Fn} {c peer : Nat} {type : ReqType} {st : State} {bld : Ptr → World → World} {rest : Ptr → M β}
    {w : World} {tape : List Ans} (h : IdsTaken cfg w) (hc : cfg.clientIndex peer = some c)
    (hb : ∀ p u, SameIds u (bld p u)) (hrest : ∀ p u, IdsTaken cfg u → cfg.clientIndex (u.mem p).peer = some c →
      KeepsTaken cfg (rest p) ⟨u, tape⟩) :
    KeepsTaken cfg (newStreamRequest fn c (cfg.mpiRank c) type st >>= fun p => update (bld p) >>= fun _ => rest p)
      ⟨w, tape⟩ := by
  have hself : cfg.clientIndex (cfg.mpiRank c) = some c := by rw [Config.mpiRank_eq hc]; exact hc
  refine Comes.start (hrest _ _ ((h.take hself fn type st).frame (hb _ _)) ?_)
  obtain ⟨-, hpeer, -⟩ := w.take_mem fn c (cfg.mpiRank c) type st
  rw [(hb _ _).peer, hpeer]
  exact hself

/-! The calls that take a request. -/

section Takes
variable {w : World} {tape : List Ans} (h : IdsTaken cfg w)
include h

/-- A call whose work after the request is filled in changes no id. -/
theorem take {fn : Fn} {c peer : Nat} {type : ReqType} {st : State} {bld : Ptr → World → World} {rest : Ptr → M β}
    (hc : cfg.clientIndex peer = some c) (hb : ∀ p u, SameIds u (bld p u)) (hrest : ∀ p, Stays SameIds (rest p)) :
    KeepsTaken cfg (newStreamRequest fn c (cfg.mpiRank c) type st >>= fun p => update (bld p) >>= fun _ => rest p)
      ⟨w, tape⟩ :=
  start h hc hb fun p _ hu _ => stays hu (hrest p)

theorem mpIsend (buf : Nat) (size : Int) (peer : Nat) (reg : Reg) :
    KeepsTaken cfg (mpIsend cfg buf size peer reg) ⟨w, tape⟩ := by
  refine .clientOf fun c hc => take h hc (fun p u => .setReq u p rfl rfl) fun p => ?_
  refine .bind (progressive_sameIds.mpPostSend c p) fun _ => .ite (.pure _) (.ite ?_ (.pure _))
  exact .bind (sameIds_gdsPrepareWaitCq c .tx p) fun _ => .ite (.pure _) (.pure _)

theorem mpIrecv (buf : Nat) (size : Int) (peer : Nat) (reg : Reg) :
    KeepsTaken cfg (mpIrecv cfg buf size peer reg) ⟨w, tape⟩ := by
  refine .clientOf fun c hc => take h hc (fun p u => .setReq u p ?_ ?_) fun p => ?_
  · split <;> rfl
  · split <;> rfl
  · refine .bind (progressive_sameIds.mpPostRecv c p) fun _ => .ite (.pure _) (.ite ?_ (.pure _))
    exact .bind (sameIds_gdsPrepareWaitCq c .rx p) fun _ => .ite (.pure _) (.pure _)

theorem mpIsendv (v : List Iovec) (peer : Nat) (reg : Reg) : KeepsTaken cfg (mpIsendv cfg v peer reg) ⟨w, tape⟩ := by
  refine .ite (fun _ => .pure h) fun _ => .clientOf fun c hc => take h hc (fun p u => .setReq u p rfl rfl) fun p => ?_
  refine .bind ((@progressive_sameIds cfg).gdsPostSend c p) fun _ => .ite (.pure _) (.ite ?_ (.pure _))
  exact .bind (sameIds_gdsPrepareWaitCq c .tx p) fun _ => .ite (.pure _) (.pure _)

theorem mpIrecvv (v : List Iovec) (peer : Nat) (reg : Reg) : KeepsTaken cfg (mpIrecvv cfg v peer reg) ⟨w, tape⟩ := by
  refine .ite (fun _ => .pure h) fun _ => .clientOf fun c hc => take h hc (fun p u => .setReq u p rfl rfl) fun p => ?_
  refine .bind ((@progressive_sameIds cfg).gdsPostRecv c p) fun _ => .ite (.pure _) (.ite ?_ (.pure _))
  exact .bind (sameIds_gdsPrepareWaitCq c .rx p) fun _ => .ite (.pure _) (.pure _)

theorem mpIput (src : Nat) (size : Int) (reg : Reg) (peer displ : Nat) (win : Window) (flags : Nat) :
    KeepsTaken cfg (mpIput cfg src size reg peer displ win flags) ⟨w, tape⟩ := by
  refine .ite (fun _ => .pure h) fun _ => .clientOf fun c hc => .require (by decide) fun _ => ?_
  refine take h hc (fun p u => .setReq u p rfl rfl) fun p => ?_
  refine .bind (progressive_sameIds.mpPostSend c p) fun _ => .ite (.pure _) (.ite ?_ (.pure _))
  exact .bind (sameIds_gdsPrepareWaitCq c .tx p) fun _ => .ite (.pure _) (.pure _)

theorem mpIget (dst : Nat) (size : Int) (reg : Reg) (peer displ : Nat) (win : Window) :
    KeepsTaken cfg (mpIget cfg dst size reg peer displ win) ⟨w, tape⟩ := by
  refine .ite (fun _ => .pure h) fun _ => .clientOf fun c hc => .require (by decide) fun _ => ?_
  refine take h hc (fun p u => .setReq u p rfl rfl) fun p => ?_
  refine .bind ((@progressive_sameIds cfg).gdsPostSend c p) fun _ => .ite (.pure _) ?_
  exact .bind (sameIds_gdsPrepareWaitCq c .tx p) fun _ => .ite (.pure _) (.pure _)

theorem mpIsendvOnStream (v : List Iovec) (peer : Nat) (reg : Reg) (s : Stream) :
    KeepsTaken cfg (mpIsendvOnStream cfg v peer reg s) ⟨w, tape⟩ := by
  refine .clientOf fun c hc => .ite (fun _ => .pure h) fun _ => .ite (fun _ => .pure h) fun _ => ?_
  refine take h hc (fun p u => .setReq u p rfl rfl) fun p => ?_
  refine .bind ((@progressive_sameIds cfg).gdsStreamQueueSend s c p) fun _ => .ite (.pure _) ?_
  exact .bind (sameIds_gdsPrepareWaitCq c .tx p) fun _ => .ite (.pure _) (.pure _)

theorem mpSendOnStream (buf : Nat) (size : Int) (peer : Nat) (reg : Reg) (s : Stream) :
    KeepsTaken cfg (mpSendOnStream cfg buf size peer reg s) ⟨w, tape⟩ := by
  refine .clientOf fun c hc => .ite (fun _ => ?_) fun _ => ?_
  · refine start h hc (fun p u => .setReq u p rfl rfl) fun p u hu hp => .step (update_run _ _ _)
      (stays (hu.stamp hp .tx) ?_)
    refine .bind (Stays.request p) fun _ => .bind Stays.returnCode fun _ => .ite (.pure _) ?_
    refine .bind (sameIds_clientTrackPostedStreamReq c p .tx s) fun _ => ?_
    refine .bind (sameIds_blockOnCompletion c .tx p _) fun _ => .ite (.pure _) ?_
    exact .bind (sameIds_gdsStreamPostDescriptors s _) fun _ => .ite (.pure _) (.pure _)
  · refine take h hc (fun p u => .setReq u p rfl rfl) fun p => ?_
    refine .bind ((@progressive_sameIds cfg).gdsStreamQueueSend s c p) fun _ => .ite (.pure _) ?_
    exact .bind (Stays.call fun w => .enqueue w s _) fun _ => .ite (.pure _) (.pure _)

theorem mpIsendOnStream (buf : Nat) (size : Int) (peer : Nat) (reg : Reg) (s : Stream) :
    KeepsTaken cfg (mpIsendOnStream cfg buf size peer reg s) ⟨w, tape⟩ := by
  refine .clientOf fun c hc => .ite (fun _ => ?_) fun _ => ?_
  · refine start h hc (fun p u => .setReq u p rfl rfl) fun p u hu hp => .step (update_run _ _ _)
      (stays (hu.stamp hp .tx) ?_)
    refine .bind (Stays.request p) fun _ => .bind Stays.returnCode fun _ => .ite (.pure _) ?_
    refine .bind (sameIds_gdsStreamPostDescriptors s _) fun _ => .ite (.pure _) ?_
    exact .bind (sameIds_clientTrackPostedStreamReq c p .tx s) fun _ => .pure _
  · refine take h hc (fun p u => .setReq u p rfl rfl) fun p => ?_
    refine .bind (progressive_sameIds.mpPostSendOnStream s c p) fun _ => .ite (.pure _) ?_
    exact .bind (sameIds_gdsPrepareWaitCq c .tx p) fun _ => .ite (.pure _) (.pure _)

omit h in
theorem prepareInfos (c : Nat) (p : Ptr) : Stays SameIds (LibMp.prepareInfos c p) := by
  refine .bind (sameIds_gdsPrepareSend c p) fun _ => .ite (.pure _) ?_
  exact .bind (sameIds_gdsPrepareWaitCq c .tx p) fun _ => .ite (.pure _) (.pure _)

theorem mpSendPrepare (buf : Nat) (size : Int) (peer : Nat) (reg : Reg) :
    KeepsTaken cfg (mpSendPrepare cfg buf size peer reg) ⟨w, tape⟩ :=
  .clientOf fun c hc => take h hc (fun p u => .setReq u p rfl rfl) fun p => .ite (.pure _) (prepareInfos c p)

theorem mpSendvPrepare (v : List Iovec) (peer : Nat) (reg : Reg) :
    KeepsTaken cfg (mpSendvPrepare cfg v peer reg) ⟨w, tape⟩ :=
  .clientOf fun c hc => .ite (fun _ => .pure h) fun _ => .ite (fun _ => .pure h) fun _ =>
    take h hc (fun p u => .setReq u p rfl rfl) fun p => prepareInfos c p

omit h in
theorem releaseOnError {m : M Int} (hm : Stays SameIds m) (p : Ptr) : Stays SameIds (LibMp.releaseOnError p m) :=
  .bind hm fun _ => .ite (.bind (Stays.update fun w => .release w p) fun _ => .pure _) (.pure _)

theorem mpPutPrepare (src : Nat) (size : Int) (reg : Reg) (peer displ : Nat) (win : Window) (flags : Nat) :
    KeepsTaken cfg (mpPutPrepare cfg src size reg peer displ win flags) ⟨w, tape⟩ := by
  refine .ite (fun _ => .pure h) fun _ => .clientOf fun c hc => .require (by decide) fun _ => ?_
  refine take h hc (fun p u => .setReq u p rfl rfl) fun p => releaseOnError ?_ p
  refine .bind (sameIds_gdsPrepareSend c p) fun _ => .ite (.pure _) (.ite (.pure _) ?_)
  exact sameIds_gdsPrepareWaitCq c .tx p

theorem mpIputOnStream (src : Nat) (size : Int) (reg : Reg) (peer displ : Nat) (win : Window) (flags : Nat)
    (s : Stream) : KeepsTaken cfg (mpIputOnStream cfg src size reg peer displ win flags s) ⟨w, tape⟩ := by
  refine .ite (fun _ => .pure h) fun _ => .clientOf fun c hc => .require (by decide) fun _ => ?_
  refine take h hc (fun p u => .setReq u p rfl rfl) fun p => releaseOnError ?_ p
  refine .bind (progressive_sameIds.mpPostSendOnStream s c p) fun _ => .ite (.pure _) (.ite ?_ ?_)
  · exact .bind (sameIds_setStatus p _) fun _ => .pure _
  · exact sameIds_gdsPrepareWaitCq c .tx p

theorem mpIgetOnStream (dst : Nat) (size : Int) (reg : Reg) (peer displ : Nat) (win : Window) (s : Stream) :
    KeepsTaken cfg (mpIgetOnStream cfg dst size reg peer displ win s) ⟨w, tape⟩ := by
  refine .ite (fun _ => .pure h) fun _ => .clientOf fun c hc => .require (by decide) fun _ => ?_
  refine take h hc (fun p u => .setReq u p rfl rfl) fun p => ?_
  refine .bind ((@progressive_sameIds cfg).gdsStreamQueueSend s c p) fun _ => .ite (.pure _) ?_
  exact .bind (sameIds_gdsPrepareWaitCq c .tx p) fun _ => .ite (.pure _) (.pure _)

end Takes

/-! The posts. With event sync each notes the id of its request. -/

section Posts
variable {w : World} {tape : List Ans}

/-- What comes after the id is noted. -/
theorem noted {c : Nat} {p : Ptr} {f : Flow} {m : M β} (h : IdsTaken cfg w)
    (hc : cfg.clientIndex (w.mem p).peer = some c)
    (hm : Stays SameIds m) : KeepsTaken cfg (update (fun w => w.stamp c f p) >>= fun _ => m) ⟨w, tape⟩ :=
  .step (update_run _ _ _) (stays (h.stamp hc f) hm)

theorem mpSendPostOnStream (h : IdsTaken cfg w) (p : Ptr) (s : Stream) :
    KeepsTaken cfg (mpSendPostOnStream cfg p s) ⟨w, tape⟩ := by
  refine .step (request_run p w tape) (.require (by decide) fun _ => .clientOf fun c hc => ?_)
  refine .step (update_run _ _ _) ?_
  have hset : SameIds w (w.setReq p fun r => { r with stream := some s }) := .setReq w p rfl rfl
  have hid := h.frame hset
  refine .ite (fun _ => .require (by decide) fun _ => .step rfl (.ite (fun _ => .pure hid) fun _ => ?_)) fun _ =>
    stays hid ?_
  · refine noted hid (by rw [hset.peer]; exact hc) (.bind Stays.returnCode fun _ => .ite (.pure _) ?_)
    refine .bind (sameIds_clientTrackPostedStreamReq c p .tx s) fun _ => ?_
    exact .bind (sameIds_blockOnCompletion c .tx p _) fun _ => .ite (.pure _) (sameIds_gdsStreamPostDescriptors s _)
  · refine .bind (sameIds_setStatus p _) fun _ => .bind (sameIds_gdsStreamPostSendAll s _) fun _ => .ite (.pure _) ?_
    exact sameIds_gdsStreamPostWaitCq s p

theorem mpIsendPostOnStream (h : IdsTaken cfg w) (p : Ptr) (s : Stream) :
    KeepsTaken cfg (mpIsendPostOnStream cfg p s) ⟨w, tape⟩ := by
  refine .step (request_run p w tape) (.require (by decide) fun _ => (.step (update_run _ _ _) ?_))
  have hset : SameIds w (w.setReq p fun r => { r with stream := some s }) := .setReq w p rfl rfl
  have hid := h.frame hset
  refine .ite (fun _ => .clientOf fun c hc => .require (by decide) fun _ => ?_) fun _ => stays hid ?_
  · refine .step rfl (.ite (fun _ => .pure hid) fun _ => ?_)
    refine noted hid (by rw [hset.peer]; exact hc) (.bind Stays.returnCode fun _ => ?_)
    refine .bind (sameIds_gdsStreamPostDescriptors s _) fun _ => .ite (.pure _) ?_
    exact .bind (sameIds_clientTrackPostedStreamReq c p .tx s) fun _ => .pure _
  · exact .bind (sameIds_setStatus p _) fun _ => sameIds_gdsStreamPostSendAll s _

theorem postAllEvent (blocking : Bool) (s : Stream) (ps : List Ptr) (descs : List StreamOp) {st : Sys}
    (h : IdsTaken cfg st.w) : KeepsTaken cfg (postAllEvent cfg blocking s ps descs) st := by
  induction ps generalizing descs st with
  | nil => exact .pure h
  | cons p rest ih =>
    refine .step (request_run p st.w st.tape) (.clientOf fun c hc => .require (by decide) fun _ => (.step rfl ?_))
    refine .ite (fun _ => .pure h) fun _ => .step (update_run _ _ _) ?_
    refine andThen (h.stamp hc _) Stays.returnCode fun _ s₁ h₁ => .ite (fun _ => .pure h₁) fun _ => ?_
    refine andThen h₁ (sameIds_clientTrackPostedStreamReq c p .tx s) fun _ s₂ h₂ => .ite (fun _ => ?_) fun _ => ih _ h₂
    exact andThen h₂ (sameIds_blockOnCompletion c .tx p _) fun _ s₃ h₃ => .ite (fun _ => .pure h₃) fun _ => ih _ h₃

/-- The loop of a batched post, then the post of what it has gathered. -/
theorem postAll (h : IdsTaken cfg w) (blocking : Bool) (s : Stream) (ps : List Ptr) :
    KeepsTaken cfg (do
      let (ret, descs) ← LibMp.postAllEvent cfg blocking s ps []
      if ret ≠ 0 then return ret
      gdsStreamPostDescriptors s descs) ⟨w, tape⟩ := by
  refine Comes.bind (postAllEvent blocking s ps [] h) fun x s₁ h₁ => ?_
  exact KeepsTaken.stays h₁ (.ite (.pure _) (sameIds_gdsStreamPostDescriptors s _))

theorem mpSendPostAllOnStream (h : IdsTaken cfg w) (ps : List Ptr) (s : Stream) :
    KeepsTaken cfg (mpSendPostAllOnStream cfg ps s) ⟨w, tape⟩ := by
  refine .ite (fun _ => postAll h true s ps) fun _ => stays h (.bind (sameIds_copyInfos ps) fun _ => ?_)
  exact .bind (sameIds_gdsStreamPostSendAll s _) fun _ => .ite (.pure _) (sameIds_gdsStreamPostWaitCqAll s ps _)

theorem mpIsendPostAllOnStream (h : IdsTaken cfg w) (ps : List Ptr) (s : Stream) :
    KeepsTaken cfg (mpIsendPostAllOnStream cfg ps s) ⟨w, tape⟩ :=
  .ite (fun _ => postAll h false s ps) fun _ => stays h (.bind (sameIds_startAll (some s) ps) fun x =>
    sameIds_gdsStreamPostSendAll s x)

end Posts

end KeepsTaken

/-! The calls that take no request and note no id. -/

theorem sameIds_mpIputPostOnStream (p : Ptr) (s : Stream) : Stays SameIds (mpIputPostOnStream p s) := by
  refine .bind (Stays.request p) fun _ => .bind (.require _ _) fun _ => ?_
  exact .bind (sameIds_gdsStreamPostSendAll s _) fun _ => .ite (.pure _)
    (.bind (sameIds_setStatus p _) fun _ => .pure _)

theorem sameIds_mpIputPostAllOnStream (ps : List Ptr) (s : Stream) : Stays SameIds (mpIputPostAllOnStream ps s) :=
  .bind (sameIds_startAll none ps) fun x => sameIds_gdsStreamPostSendAll s x

theorem sameIds_mpWaitOnStream (p : Ptr) (s : Stream) : Stays SameIds (mpWaitOnStream cfg p s) := by
  refine .bind (Stays.request p) fun _ => .bind (Stays.clientOf _) fun c => .bind (.require _ _) fun _ => .ite ?_ ?_
  · refine .ite (.pure _) (.bind (Stays.client c) fun _ => .ite ?_ (.pure _))
    refine .bind (Stays.update fun w => .arm w c _ p) fun _ => .bind Stays.returnCode fun _ => .ite (.pure _) ?_
    exact sameIds_gdsStreamPostDescriptors s _
  · refine .ite (.pure _) (.bind (.require _ _) fun _ => .bind (sameIds_touch p _ _) fun _ => ?_)
    exact sameIds_gdsStreamPostWaitCq s p

theorem sameIds_mpWaitAllOnStream (ps : List Ptr) (s : Stream) : Stays SameIds (mpWaitAllOnStream cfg ps s) := by
  refine .ite (.pure _) (.ite ?_ ?_)
  · exact .bind (Stays.waitAllEvent SameIds.arm ps []) fun _ => .ite (.pure _) (sameIds_gdsStreamPostDescriptors s _)
  · exact .bind (Stays.waitAllCopy (fun w p => .setReq w p rfl rfl) ps) fun _ => .ite (.pure _)
      (sameIds_gdsStreamPostWaitCqAll s ps _)

theorem sameIds_mpWaitAll (ps : List Ptr) : Stays SameIds (mpWaitAll cfg ps) := by
  refine .bind (sameIds_postWaits ps) fun _ => .ite (.pure _) ?_
  exact .bind (progressive_sameIds.spinAll ps) fun _ => .ite (.pure _) (Stays.releaseAll SameIds.release 0 ps)

/-- A descriptor is added, and the status of its request changes. -/
theorem sameIds_push (dq : Nat) (d : Desc) (p : Ptr) (status : State) :
    Stays SameIds (update fun w => (w.pushDesc dq d).setStatus p status) := by
  refine Stays.update fun w => ?_
  have hpush : SameIds w (w.pushDesc dq d) := .of_eq rfl rfl
  exact trans_of SameIds hpush (.setReq _ p rfl rfl)

theorem sameIds_addWaitDesc (dq : Nat) (p : Ptr) : Stays SameIds (addWaitDesc dq p) :=
  .bind (Stays.request p) fun _ => .bind (.require _ _) fun _ => .bind (sameIds_push dq _ p _) fun _ => .pure _

theorem sameIds_mpDescQueuePostOnStream (s : Stream) (dq : Nat) : Stays SameIds (mpDescQueuePostOnStream s dq) := by
  have hflush : Stays SameIds (update fun w => w.flushDescs dq) := Stays.update fun _ => .of_eq rfl rfl
  refine .bind Stays.world fun w => .ite (.pure _) (.bind Stays.returnCode fun ret => ?_)
  split
  · refine .bind (Stays.update fun u => ?_) fun _ => .bind hflush fun _ => .pure _
    exact trans_of SameIds (.launchAll u _) (.enqueue _ s _)
  · exact .bind hflush fun _ => .pure _

theorem sameIds_getSendDescriptors (p : Ptr) : Stays SameIds (getSendDescriptors cfg p) := by
  refine .bind (Stays.request p) fun _ => .bind (.require _ _) fun _ => .ite (.pure _) ?_
  refine .bind (sameIds_touch p _ _) fun _ => .bind Stays.returnCode fun _ => .ite (.pure _) ?_
  exact .bind (Stays.update fun w => .launchAll w _) fun _ => .pure _

theorem sameIds_getWaitDescriptors (p : Ptr) : Stays SameIds (getWaitDescriptors cfg p) := by
  refine .bind (Stays.request p) fun _ => .bind (Stays.clientOf _) fun _ => .bind (.require _ _) fun _ => ?_
  exact .bind (sameIds_touch p _ _) fun _ => .bind Stays.returnCode fun _ => .ite (.pure _) (.pure _)

/-! ## Runs -/

namespace KeepsTaken
variable {w : World} {tape : List Ans}

/-- Every call, with any arguments. -/
theorem call (h : IdsTaken cfg w) (op : Op) : KeepsTaken cfg (op.run cfg) ⟨w, tape⟩ := by
  cases op with
  | isend buf size peer reg => exact mpIsend h ..
  | irecv buf size peer reg => exact mpIrecv h ..
  | isendv v peer reg => exact mpIsendv h ..
  | irecvv v peer reg => exact mpIrecvv h ..
  | iput src size reg peer displ win flags => exact mpIput h ..
  | iget dst size reg peer displ win => exact mpIget h ..
  | sendOnStream buf size peer reg s => exact mpSendOnStream h ..
  | isendOnStream buf size peer reg s => exact mpIsendOnStream h ..
  | isendvOnStream v peer reg s => exact mpIsendvOnStream h ..
  | sendPrepare buf size peer reg => exact mpSendPrepare h ..
  | sendvPrepare v peer reg => exact mpSendvPrepare h ..
  | putPrepare src size reg peer displ win flags => exact mpPutPrepare h ..
  | iputOnStream src size reg peer displ win flags s => exact mpIputOnStream h ..
  | igetOnStream dst size reg peer displ win s => exact mpIgetOnStream h ..
  | sendPost p s => exact .only (mpSendPostOnStream h p s)
  | isendPost p s => exact .only (mpIsendPostOnStream h p s)
  | sendPostAll ps s => exact .only (mpSendPostAllOnStream h ps s)
  | isendPostAll ps s => exact .only (mpIsendPostAllOnStream h ps s)
  | iputPost p s => exact .only (stays h (sameIds_mpIputPostOnStream p s))
  | iputPostAll ps s => exact .only (stays h (sameIds_mpIputPostAllOnStream ps s))
  | waitOnStream p s => exact .only (stays h (sameIds_mpWaitOnStream p s))
  | waitAllOnStream ps s => exact .only (stays h (sameIds_mpWaitAllOnStream ps s))
  | waitAll ps => exact .only (stays h (sameIds_mpWaitAll ps))
  | progressAll ps => exact .only (stays h (progressive_sameIds.progressAllFrom 0 ps))
  | progress f => exact .only (stays h (progressive_sameIds.mpProgressSingleFlow f))
  | descAddSend dq p =>
    refine .only (stays h (.bind (Stays.request p) fun _ => .bind (.require _ _) fun _ => .bind (.require _ _)
      fun _ => ?_))
    exact .bind (sameIds_push dq _ p _) fun _ => .pure _
  | descAddWaitSend dq p =>
    refine .only (stays h (.bind (Stays.request p) fun _ => .bind (.require _ _) fun _ => .bind (.require _ _)
      fun _ => ?_))
    exact sameIds_addWaitDesc dq p
  | descAddWaitRecv dq p =>
    refine .only (stays h (.bind (Stays.request p) fun _ => .bind (.require _ _) fun _ => ?_))
    exact sameIds_addWaitDesc dq p
  | descAddWaitValue32 dq addr value cond =>
    exact .only (stays h (.bind (Stays.update fun _ => .of_eq rfl rfl) fun _ => .pure _))
  | descAddWriteValue32 dq addr value =>
    exact .only (stays h (.bind (Stays.update fun _ => .of_eq rfl rfl) fun _ => .pure _))
  | descPost s dq => exact .only (stays h (sameIds_mpDescQueuePostOnStream s dq))
  | getSendDesc p => exact .only (stays h (sameIds_getSendDescriptors p))
  | getWaitDesc p => exact .only (stays h (sameIds_getWaitDescriptors p))

end KeepsTaken

end LibMp
