import LibMp.Carried
import LibMp.Posting
import LibMp.PostedList

/- The wait infos, and what leaves them alone.

   A fill is what `gds_prepare_wait_cq` writes to the wait info of a request; the
   model numbers them. Progress, the releases and all that is done with event
   sync to requests that exist take no request, fill no wait info and give none
   away (`Quiet`); for a program that is `Quietly`. -/
namespace LibMp
variable {cfg : Config}

/-! ## Fills -/

/-- The call prepares a wait info for its request, unless the request is a put
that is not to be waited for. -/
def Fn.preparesWait (cfg : Config) : Fn → Bool
  | .mpIput | .mpIget | .mpPutPrepare | .mpIputOnStream | .mpIgetOnStream => true
  | .mpSendOnStream => false
  | _ => !cfg.useEventSync

/-- The wait info of the request at `p` was filled for its operation. -/
def Own (cfg : Config) (w : World) (p : Ptr) : Prop := ∃ n c,
  (w.mem p).gdsWaitInfo = some ⟨n, c, (w.mem p).type.flow, (w.mem p).id⟩ ∧ cfg.clientIndex (w.mem p).peer = some c

/-- The wait info of the request at `p` has been given away. -/
def Spent (w : World) (p : Ptr) : Prop := .given p (w.mem p).id (w.mem p).gdsWaitInfo ∈ w.log

/-- The fill that the event gives away. -/
def LogEv.serial : LogEv → Option Nat
  | .given _ _ (some i) => some i.serial
  | _ => none

/-- The fills given away, in order. -/
def givenSerials (log : List LogEv) : List Nat := log.filterMap LogEv.serial

theorem givenSerials_append (l₁ l₂ : List LogEv) : givenSerials (l₁ ++ l₂) = givenSerials l₁ ++ givenSerials l₂ :=
  List.filterMap_append

theorem mem_givenSerials {n : Nat} {log : List LogEv} :
    n ∈ givenSerials log ↔ ∃ p op i, .given p op (some i) ∈ log ∧ i.serial = n := by
  rw [givenSerials, List.mem_filterMap]
  constructor
  · intro ⟨e, he, hn⟩
    unfold LogEv.serial at hn
    split at hn
    · rename_i p op i
      cases hn
      exact ⟨p, op, i, he, rfl⟩
    · cases hn
  · intro ⟨p, op, i, he, hn⟩
    exact ⟨_, he, congrArg some hn⟩

/-- The event gives no wait info away. -/
def LogEv.NotGiven : LogEv → Prop
  | .given _ _ _ => False
  | _ => True

theorem givenSerials_notGiven {l : List LogEv} (h : ∀ e ∈ l, e.NotGiven) : givenSerials l = [] := by
  rw [givenSerials, List.filterMap_eq_nil_iff]
  intro e he
  have hng := h e he
  cases e with
  | given => exact hng.elim
  | _ => rfl

/-! ## What does not concern the wait infos -/

/-- The same operation, with the same wait info. -/
structure Request.SameJob (r r' : Request) : Prop where
  info : r'.gdsWaitInfo = r.gdsWaitInfo
  id : r'.id = r.id
  peer : r'.peer = r.peer
  type : r'.type = r.type
  flags : r'.flags = r.flags
  owner : r'.owner = r.owner

/-- And it does not get ready to be posted or waited for. -/
structure Request.SameWait (r r' : Request) : Prop extends Request.SameJob r r' where
  nowait : r'.status = .pendingNowait → r.status = .pendingNowait
  prepared : r'.status = .prepared → r.status = .prepared

theorem Request.SameWait.refl (r : Request) : r.SameWait r := ⟨⟨rfl, rfl, rfl, rfl, rfl, rfl⟩, fun h => h, fun h => h⟩

theorem Request.SameWait.trans {r₁ r₂ r₃ : Request} (h₁ : r₁.SameWait r₂) (h₂ : r₂.SameWait r₃) : r₁.SameWait r₃ :=
  ⟨⟨h₂.info.trans h₁.info, h₂.id.trans h₁.id, h₂.peer.trans h₁.peer, h₂.type.trans h₁.type, h₂.flags.trans h₁.flags,
    h₂.owner.trans h₁.owner⟩, fun h => h₁.nowait (h₂.nowait h), fun h => h₁.prepared (h₂.prepared h)⟩

/-- The waits set the stream and the status together. -/
theorem Request.SameWait.pends (r : Request) (o : Option Stream) :
    r.SameWait { r with stream := o, status := .pending } := ⟨⟨rfl, rfl, rfl, rfl, rfl, rfl⟩, nofun, nofun⟩

theorem Request.SameWait.relinked (r : Request) (n v : Option Ptr) : r.SameWait { r with next := n, prev := v } :=
  ⟨⟨rfl, rfl, rfl, rfl, rfl, rfl⟩, fun h => h, fun h => h⟩

theorem Request.SameWait.setReq {w : World} {p : Ptr} {g : Request → Request}
    (hg : (w.mem p).SameWait (g (w.mem p))) (q : Ptr) : (w.mem q).SameWait ((w.setReq p g).mem q) :=
  w.setReq_rel .refl hg q

theorem Request.SameJob.canBeWaited {r r' : Request} (h : r.SameJob r') : r'.canBeWaited = r.canBeWaited := by
  unfold Request.canBeWaited
  rw [h.type, h.flags]

/-- The request was put back. -/
structure Request.PutBack (r r' : Request) : Prop where
  info : r'.gdsWaitInfo = r.gdsWaitInfo
  id : r'.id = r.id
  owner : r'.owner = none
  nowait : r'.status ≠ .pendingNowait
  prepared : r'.status ≠ .prepared

/-- From `w` to `w'` no request was taken, no wait info filled and none given
away. -/
structure Quiet (w w' : World) : Prop where
  req : ∀ p, (w.mem p).SameWait (w'.mem p) ∨ (w.mem p).PutBack (w'.mem p)
  reqId : ∀ c, (w'.clients c).lastReqId = (w.clients c).lastReqId
  fills : w'.fills = w.fills
  log : Adds LogEv.NotGiven w w'

namespace Quiet
variable {w w₁ w₂ : World}

theorem refl (w : World) : Quiet w w := ⟨fun _ => .inl (.refl _), fun _ => rfl, rfl, .refl⟩

theorem trans (h₁ : Quiet w w₁) (h₂ : Quiet w₁ w₂) : Quiet w w₂ := by
  refine ⟨fun p => ?_, fun c => (h₂.reqId c).trans (h₁.reqId c), h₂.fills.trans h₁.fills, h₁.log.trans h₂.log⟩
  rcases h₁.req p with a | a <;> rcases h₂.req p with b | b
  · exact .inl (a.trans b)
  · exact .inr ⟨b.info.trans a.info, b.id.trans a.id, b.owner, b.nowait, b.prepared⟩
  · exact .inr ⟨b.info.trans a.info, b.id.trans a.id, b.owner.trans a.owner, fun h => a.nowait (b.nowait h),
      fun h => a.prepared (b.prepared h)⟩
  · exact .inr ⟨b.info.trans a.info, b.id.trans a.id, b.owner, b.nowait, b.prepared⟩

theorem info (h : Quiet w w₁) (p : Ptr) : (w₁.mem p).gdsWaitInfo = (w.mem p).gdsWaitInfo := by
  rcases h.req p with hp | hp
  · exact hp.info
  · exact hp.info

theorem id (h : Quiet w w₁) (p : Ptr) : (w₁.mem p).id = (w.mem p).id := by
  rcases h.req p with hp | hp
  · exact hp.id
  · exact hp.id

theorem serials (h : Quiet w w₁) : givenSerials w₁.log = givenSerials w.log := by
  obtain ⟨l, hl, hng⟩ := h.log
  rw [hl, givenSerials_append, givenSerials_notGiven hng, List.append_nil]

theorem given_iff (h : Quiet w w₁) {p : Ptr} {op : Nat} {info : Option WaitInfo} :
    .given p op info ∈ w₁.log ↔ .given p op info ∈ w.log := by
  obtain ⟨l, hl, hng⟩ := h.log
  rw [hl, List.mem_append]
  constructor
  · intro hm
    rcases hm with hm | hm
    · exact hm
    · exact (hng _ hm).elim
  · exact .inl

/-- The requests are left alone. -/
theorem of_mem (hm : w₁.mem = w.mem) (hc : ∀ c, (w₁.clients c).lastReqId = (w.clients c).lastReqId)
    (hf : w₁.fills = w.fills) (hl : Adds LogEv.NotGiven w w₁) : Quiet w w₁ :=
  ⟨fun p => .inl (by rw [hm]; exact .refl _), hc, hf, hl⟩

/-- One request changes. -/
theorem setReq (w : World) (p : Ptr) {g : Request → Request} (h : (w.mem p).SameWait (g (w.mem p))) :
    Quiet w (w.setReq p g) :=
  ⟨fun q => .inl (h.setReq q), fun _ => rfl, rfl, .of_log rfl⟩

theorem pends (w : World) (p : Ptr) (o : Option Stream) :
    Quiet w (w.setReq p fun r => { r with stream := o, status := .pending }) :=
  setReq w p (.pends _ o)

theorem setClient (w : World) (c : Nat) {g : Client → Client}
    (h : (g (w.clients c)).lastReqId = (w.clients c).lastReqId) : Quiet w (w.setClient c g) := by
  refine of_mem rfl (fun d => ?_) rfl (.of_log rfl)
  exact w.setClient_rel (R := fun a b => b.lastReqId = a.lastReqId) (fun _ => rfl) h d

theorem addLog (w : World) {e : LogEv} (he : e.NotGiven) : Quiet w (w.addLog e) := by
  refine of_mem rfl (fun _ => rfl) rfl ⟨[e], rfl, fun x hx => ?_⟩
  rw [List.mem_singleton.mp hx]
  exact he

theorem accept (w : World) (c : Nat) (f : Flow) (p : Ptr) : Quiet w (w.accept c f p) := by
  refine of_mem rfl (fun _ => rfl) rfl ⟨[.accepted c f p (w.mem p).id], rfl, fun x hx => ?_⟩
  rw [List.mem_singleton.mp hx]
  trivial

theorem enqueue (w : World) (s : Stream) (ops : List StreamOp) : Quiet w (w.enqueue s ops) :=
  of_mem rfl (fun _ => rfl) rfl (.of_log rfl)

theorem launch (w : World) (info : SendInfo) : Quiet w (w.launch info) := by
  refine of_mem rfl (fun _ => rfl) rfl ⟨[.accepted info.client .tx info.wr.wrId info.op], rfl, fun x hx => ?_⟩
  rw [List.mem_singleton.mp hx]
  trivial

theorem launchAll (w : World) (infos : List (Option SendInfo)) : Quiet w (LibMp.launchAll w infos) := by
  induction infos generalizing w with
  | nil => exact .refl w
  | cons info rest ih =>
    cases info with
    | none => exact ih w
    | some info => exact (launch w info).trans (ih _)

theorem fillSend (w : World) (c : Nat) (p : Ptr) : Quiet w (w.fillSend c p) :=
  (setReq w p ⟨⟨rfl, rfl, rfl, rfl, rfl, rfl⟩, fun h => h, fun h => h⟩).trans (addLog _ trivial)

theorem setStatus (w : World) (p : Ptr) {st : State} (hn : st ≠ .pendingNowait) (hp : st ≠ .prepared) :
    Quiet w (w.setStatus p st) :=
  setReq w p ⟨⟨rfl, rfl, rfl, rfl, rfl, rfl⟩, fun h => absurd h hn, fun h => absurd h hp⟩

theorem release (w : World) (p : Ptr) : Quiet w (w.release p) := by
  refine ⟨fun q => ?_, fun _ => rfl, rfl, ⟨[.released p (w.mem p).peer (w.mem p).id], rfl, fun x hx => ?_⟩⟩
  · by_cases hq : q = p
    · right
      have hm : (w.release p).mem q = { w.mem p with
          next := w.mpRequestFreeList, prev := none, type := .null, status := .undef, owner := none } := by
        simp [World.release, hq]
      rw [hm, hq]
      exact ⟨rfl, rfl, rfl, by simp, by simp⟩
    · left
      have hm : (w.release p).mem q = w.mem q := by simp [World.release, hq]
      rw [hm]
      exact .refl _
  · rw [List.mem_singleton.mp hx]
    trivial

theorem gpuStep (w : World) (s : Stream) : Quiet w (w.gpuStep s) := by
  refine of_mem (w.gpuStep_mem s) (fun c => ?_) ?_ ⟨_, w.gpuStep_log s, fun e he => ?_⟩
  · obtain ⟨x, y, hc⟩ := w.gpuStep_clients s c
    rw [hc]
  · rcases w.gpuStep_cases s with hw | ⟨op, rest, -, -, hw⟩
    · rw [hw]
    · rw [hw]
      cases op with
      | write word v => cases word <;> rfl
      | _ => rfl
  · obtain ⟨op, rest, -, -, rfl⟩ := mem_log_gpu (a := ⟨w, none⟩) he
    trivial

theorem gpu (w : World) (g : Gpu) : Quiet w (w.gpu g) := by
  cases g with
  | run s => exact gpuStep w s
  | store c v =>
    show Quiet w (w.setClient c fun cl => { cl with lastTriggerId := Function.update cl.lastTriggerId .tx v })
    exact setClient w c rfl

theorem delink (w : World) (c : Nat) (f : Flow) (p : Ptr) : Quiet w (w.delink c f p) := by
  obtain ⟨-, -, -, -, hlog, hfills⟩ := World.delink_rest (w := w) (c := c) (f := f) (p := p)
  refine ⟨fun q => ?_, fun d => ?_, hfills, .of_log hlog⟩
  · left
    obtain ⟨n, v, hq⟩ := World.delink_links (w := w) (c := c) (f := f) (p := p) q
    rw [hq]
    exact .relinked _ n v
  · obtain ⟨x, y, hd⟩ := World.delink_heads (w := w) (c := c) (f := f) (p := p) d
    rw [hd]

theorem handOver (w : World) (c : Nat) (f : Flow) (p : Ptr) : Quiet w (w.handOver c f p) :=
  ((addLog w (e := .handed c p (w.mem p).id ((w.clients c).lastTriggerId f)) trivial).trans
    (setStatus _ p (by decide) (by decide))).trans (delink _ c f p)

theorem progressRequest (w : World) (p : Ptr) : Quiet w (w.progressRequest p) := by
  unfold World.progressRequest
  split
  · exact setReq w p ⟨⟨rfl, rfl, rfl, rfl, rfl, rfl⟩, nofun, nofun⟩
  · exact setReq w p ⟨⟨rfl, rfl, rfl, rfl, rfl, rfl⟩, nofun, nofun⟩
  · exact .refl w
  · exact .refl w
  · exact .refl w

theorem complete (w : World) (c : Nat) (f : Flow) (k : Nat) (wr : Wr) : Quiet w (w.complete cfg c f k wr) := by
  have hdeq : Quiet w (w.dequeue c f k) := of_mem rfl (fun _ => rfl) rfl (.of_log rfl)
  unfold World.complete
  refine (hdeq.trans ?_).trans (((setClient _ c rfl).trans (progressRequest _ _)).trans (addLog _ trivial))
  split
  · exact setClient _ c rfl
  · exact .refl _

theorem append (w : World) (c : Nat) (f : Flow) (p : Ptr) : Quiet w (w.append c f p) := by
  refine ⟨fun q => ?_, fun d => ?_, ?_, .of_log (w.append_log c f p)⟩
  · left
    obtain ⟨n, v, hq⟩ := World.append_links (w := w) (c := c) (f := f) (p := p) q
    rw [hq]
    exact .relinked _ n v
  · obtain ⟨x, y, hd⟩ := World.append_heads (w := w) (c := c) (f := f) (p := p) d
    rw [hd]
  · unfold World.append
    split
    · rfl
    · split <;> rfl

theorem stamp (w : World) (c : Nat) (f : Flow) (p : Ptr) : Quiet w (w.stamp c f p) := setClient w c rfl

theorem arm (w : World) (c : Nat) (f : Flow) (p : Ptr) : Quiet w (w.arm c f p) :=
  (setReq w p ⟨⟨rfl, rfl, rfl, rfl, rfl, rfl⟩, fun h => h, fun h => h⟩).trans (setClient _ c rfl)

theorem noteWaits (w : World) (s : Stream) (ps : List Ptr) : Quiet w (w.noteWaits cfg s ps) := by
  induction ps generalizing w with
  | nil => exact .refl w
  | cons p rest ih =>
    have hnote : ∀ c f k, LogEv.NotGiven (.waited c f p (w.mem p).id s k) := fun _ _ _ => trivial
    exact (addLog w (hnote _ _ _)).trans (ih _)

end Quiet

instance : IsPreorder World Quiet where
  refl := .refl
  trans _ _ _ := .trans

theorem progressive_quiet : Progressive cfg Quiet where
  gpu := Quiet.gpu
  accept := Quiet.accept
  enqueue := Quiet.enqueue
  handOver _ := Quiet.handOver
  complete := Quiet.complete

/-- The program fills no wait info and gives none away. -/
abbrev Quietly {α : Type} (m : M α) : Prop := Prog.Within (fun s s' : Sys => Quiet s.w s'.w) m

namespace Quietly

theorem gdsStreamPostSendAll (s : Stream) (infos : List (Option SendInfo)) : Quietly (gdsStreamPostSendAll s infos) :=
  Stays.call fun w => (Quiet.launchAll w infos).trans (.enqueue _ s _)

theorem gdsStreamPostDescriptors (s : Stream) (descs : List StreamOp) : Quietly (gdsStreamPostDescriptors s descs) :=
  Stays.gdsStreamPostDescriptors fun w => .enqueue w s descs

theorem releaseAll (ret : Int) (ps : List Ptr) : Quietly (releaseAll ret ps) := Stays.releaseAll Quiet.release ret ps

/-! Posts and waits on a stream with event sync. -/

theorem clientTrackPostedStreamReq (c : Nat) (p : Ptr) (f : Flow) (s : Stream) :
    Quietly (clientTrackPostedStreamReq c p f s) := by
  refine Stays.clientTrackPostedStreamReq fun w op => ?_
  have htracked : LogEv.NotGiven (.tracked c p op s) := trivial
  exact (Quiet.append w c f p).trans (.addLog _ htracked)

theorem blockOnCompletion (c : Nat) (f : Flow) (p : Ptr) (descs : List StreamOp) :
    Quietly (blockOnCompletion c f p descs) :=
  Stays.blockOnCompletion (fun w => .arm w c f p) descs

theorem postAllEvent (blocking : Bool) (s : Stream) (ps : List Ptr) (descs : List StreamOp) :
    Quietly (postAllEvent cfg blocking s ps descs) := by
  induction ps generalizing descs with
  | nil => exact .pure _
  | cons p rest ih =>
    refine .bind (Stays.request p) fun r => .bind (Stays.clientOf _) fun c => .bind (.require _ _) fun _ =>
      .bind (Stays.client c) fun _ => ?_
    refine .ite (.pure _) (.bind (Stays.update fun w => .stamp w c _ p) fun _ => ?_)
    refine .bind Stays.returnCode fun _ => .ite (.pure _) ?_
    refine .bind (clientTrackPostedStreamReq c p .tx s) fun _ => .ite ?_ (ih _)
    exact .bind (blockOnCompletion c .tx p _) fun _ => .ite (.pure _) (ih _)

theorem waitAllEvent (ps : List Ptr) (descs : List StreamOp) : Quietly (waitAllEvent cfg ps descs) :=
  Stays.waitAllEvent Quiet.arm ps descs

theorem touch (p : Ptr) (s : Stream) :
    Quietly (LibMp.update fun w => w.setReq p fun r => { r with stream := some s }) :=
  Stays.update fun w => .setReq w p ⟨⟨rfl, rfl, rfl, rfl, rfl, rfl⟩, fun h => h, fun h => h⟩

section EventSync
variable (he : cfg.useEventSync = true)
include he

theorem mpSendPostOnStream (p : Ptr) (s : Stream) : Quietly (mpSendPostOnStream cfg p s) := by
  unfold LibMp.mpSendPostOnStream
  refine .bind (Stays.request p) fun r => .bind (.require _ _) fun _ => .bind (Stays.clientOf _) fun c =>
    .bind (touch p s) fun _ => ?_
  rw [if_pos he]
  refine .bind (.require _ _) fun _ => .bind (Stays.client c) fun _ => .ite (.pure _) ?_
  refine .bind (Stays.update fun w => .stamp w c _ p) fun _ => .bind Stays.returnCode fun _ => .ite (.pure _) ?_
  refine .bind (clientTrackPostedStreamReq c p .tx s) fun _ => .bind (blockOnCompletion c .tx p _) fun _ => ?_
  exact .ite (.pure _) (gdsStreamPostDescriptors s _)

theorem mpIsendPostOnStream (p : Ptr) (s : Stream) : Quietly (mpIsendPostOnStream cfg p s) := by
  unfold LibMp.mpIsendPostOnStream
  refine .bind (Stays.request p) fun r => .bind (.require _ _) fun _ => .bind (touch p s) fun _ => ?_
  rw [if_pos he]
  refine .bind (Stays.clientOf _) fun c => .bind (.require _ _) fun _ => .bind (Stays.client c) fun _ =>
    .ite (.pure _) ?_
  refine .bind (Stays.update fun w => .stamp w c _ p) fun _ => .bind Stays.returnCode fun _ =>
    .bind (gdsStreamPostDescriptors s _) fun _ => ?_
  exact .ite (.pure _) (.bind (clientTrackPostedStreamReq c p .tx s) fun _ => .pure _)

theorem mpSendPostAllOnStream (ps : List Ptr) (s : Stream) : Quietly (mpSendPostAllOnStream cfg ps s) := by
  unfold LibMp.mpSendPostAllOnStream
  rw [if_pos he]
  exact .bind (postAllEvent true s ps []) fun _ => .ite (.pure _) (gdsStreamPostDescriptors s _)

theorem mpIsendPostAllOnStream (ps : List Ptr) (s : Stream) : Quietly (mpIsendPostAllOnStream cfg ps s) := by
  unfold LibMp.mpIsendPostAllOnStream
  rw [if_pos he]
  exact .bind (postAllEvent false s ps []) fun _ => .ite (.pure _) (gdsStreamPostDescriptors s _)

theorem mpWaitOnStream (p : Ptr) (s : Stream) : Quietly (mpWaitOnStream cfg p s) := by
  unfold LibMp.mpWaitOnStream
  refine .bind (Stays.request p) fun r => .bind (Stays.clientOf _) fun c => .bind (.require _ _) fun _ => ?_
  rw [if_pos he]
  refine .ite (.pure _) (.bind (Stays.client c) fun _ => .ite (.bind (Stays.update fun w => .arm w c _ p) fun _ => ?_)
    (.pure _))
  exact .bind Stays.returnCode fun _ => .ite (.pure _) (gdsStreamPostDescriptors s _)

theorem mpWaitAllOnStream (ps : List Ptr) (s : Stream) : Quietly (mpWaitAllOnStream cfg ps s) := by
  unfold LibMp.mpWaitAllOnStream
  rw [if_pos he]
  exact .ite (.pure _) (.bind (waitAllEvent ps []) fun _ => .ite (.pure _) (gdsStreamPostDescriptors s _))

end EventSync

end Quietly

end LibMp
