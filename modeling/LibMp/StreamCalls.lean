import LibMp.Calls

/- The request machine follows the calls on streams: sends, prepared sends
   with event sync, and the waits. -/
namespace LibMp
variable {cfg : Config} {Good : Ans → Prop} {K : Lbl → Mach → Prop}

/-! ## Stream calls without event sync -/

section Queue
variable (hK : ∀ l a, l.Basic → K l a) (hE : ∀ s ops a, K (.enqueue s ops) a) (hG : Good {})
include hK hE hG

omit hK hE hG in
/-- Operations other than waits and writes of the two words of a client. -/
theorem enqueueOk_of_forall {w : World} {ops : List StreamOp}
    (h : ∀ op ∈ ops, (∀ word v, op ≠ .write word v) ∧ ∀ word v cond, op ≠ .wait word v cond) :
    EnqueueOk cfg w ops :=
  ⟨fun _ _ _ hm => absurd rfl ((h _ hm).1 _ _), fun _ _ _ _ hm => absurd rfl ((h _ hm).2 _ _ _)⟩

theorem follows_gdsStreamQueueSend {a : Mach} {p : Ptr} {st : State} {c : Nat} (s : Stream)
    (hc : a.cur = some ⟨p, st, true⟩) (hst : st.isPending) (hat : a.w.At cfg p c .tx) :
    Follows cfg Good K a (gdsStreamQueueSend s c p) (fun rc d =>
      (rc = 0 ∧ d = ⟨(a.w.accept c .tx p).enqueue s [.queueSend p], none⟩ ∨ rc ≠ 0 ∧ d = a) ∧
      ∃ ans, Good ans ∧ ans.rc = rc) := by
  have hops : EnqueueOk cfg (a.w.accept c .tx p) [.queueSend p] := enqueueOk_of_forall (by simp)
  exact follows_call hG ((moves_accept hK hc hst hat).tail
    ⟨.enqueue s [.queueSend p], hE _ _ _, Step.enqueue hops.1 hops.2⟩) rfl

theorem follows_queueRetry {p : Ptr} {st : State} {c : Nat} (s : Stream) (hst : st.isPending) (fuel : Nat) (a : Mach)
    (hc : a.cur = some ⟨p, st, true⟩) (hat : a.w.At cfg p c .tx) :
    Follows cfg Good K a (queueRetry cfg s c p fuel) (fun ret b => b.Built ∧ (ret = 0 → b.cur = none) ∧
      ∀ q, (a.w.mem q).SameOp (b.w.mem q)) := by
  induction fuel generalizing a with
  | zero => exact Follows.stop (fun s hR => ⟨hR.1, built_of_cur hc⟩)
  | succ fuel ih =>
    have ha := built_of_cur hc
    unfold queueRetry
    refine Follows.bind (follows_gdsStreamQueueSend hK hE hG s hc hst hat) ?_
    rintro ret b ⟨hb, -⟩
    refine Follows.ite (fun hret => ?_) (fun hret => ?_)
    · have hne : ret ≠ 0 := by rw [hret]; decide
      obtain rfl : b = a := (hb.resolve_left (fun h => hne h.1)).2
      refine Follows.bind (follows_mpProgressSingleFlow (progress_of_basic hK) hG .tx b ha) (fun rp d hd => ?_)
      refine Follows.ite (fun h0 => .pure ⟨hd.built ha, fun h => absurd h h0, hd.req⟩) (fun _ => ?_)
      refine Follows.bind (follows_mpProgressSingleFlow (progress_of_basic hK) hG .rx d (hd.built ha))
        (fun rp e he => ?_)
      have hae := hd.trans he
      refine Follows.ite (fun h0 => .pure ⟨hae.built ha, fun h => absurd h h0, hae.req⟩) (fun _ => ?_)
      have hrec := (ih e (by rw [hae.cur]; exact hc) (hae.at_iff.mpr hat)).conseq
        (fun ret' k hk => (⟨hk.1, hk.2.1, fun q => (hae.req q).trans (hk.2.2 q)⟩ :
          k.Built ∧ (ret' = 0 → k.cur = none) ∧ ∀ q, (b.w.mem q).SameOp (k.w.mem q)))
      refine Follows.timeout hG (fun late => ?_)
      refine Follows.ite (fun _ => ?_) (fun _ => hrec)
      exact Follows.mpCheckGpuError hG (fun rc => Follows.ite
        (fun h0 => .pure ⟨hae.built ha, fun h => absurd h h0, hae.req⟩) (fun _ => hrec))
    · rcases hb with ⟨h0, rfl⟩ | ⟨h0, rfl⟩
      · exact .pure ⟨(by intro q st' hq; cases hq), fun _ => rfl, fun _ => .refl _⟩
      · exact .pure ⟨ha, fun h => absurd h h0, fun _ => .refl _⟩

theorem follows_mpPostSendOnStream {p : Ptr} {st : State} {c : Nat} (s : Stream) (hst : st.isPending) (a : Mach)
    (hc : a.cur = some ⟨p, st, true⟩) (hat : a.w.At cfg p c .tx) :
    Follows cfg Good K a (mpPostSendOnStream cfg s c p) (fun ret b => b.Built ∧ (ret = 0 → b.cur = none) ∧
      ∀ q, (a.w.mem q).SameOp (b.w.mem q)) := by
  unfold mpPostSendOnStream
  refine Follows.bind (Q := fun _ b => b = a) (Sim.get (fun b s _ hb => hb)) (fun st' b hb => ?_)
  rw [hb]
  exact follows_queueRetry hK hE hG s hst _ a hc hat

theorem follows_mpIsendvOnStream (v : List Iovec) (peer : Nat) (reg : Reg) (s : Stream) (a : Mach) (ha : a.cur = none) :
    Follows cfg Good K a (mpIsendvOnStream cfg v peer reg s) (fun _ b => b.Built) := by
  have ha' : a.Built := by intro p st; rw [ha]; simp
  unfold mpIsendvOnStream
  refine Follows.clientOf (fun c hc => ?_)
  refine Follows.ite (fun _ => .pure ha') (fun _ => ?_)
  refine Follows.ite (fun _ => .pure ha') (fun _ => ?_)
  refine Follows.start hK _ (fun _ _ => rfl) ha hc (by decide) rfl (.inr trivial) (by intro h; cases h)
    (fun p r hf _ => buildSendv_ok hf c v.length .sgv _) (fun p b _ _ hb _ => ?_)
  refine Follows.bind (follows_gdsStreamQueueSend hK hE hG s hb.cur isPending_nowait hb.at_) (fun ret d hd => ?_)
  have hd' := built_of_post hb.cur rfl hd.1
  refine Follows.ite (fun _ => .pure hd') (fun _ => ?_)
  exact follows_prepareEnd hK hG hd' c .tx p _ _

end Queue

/-! ## Tracking and arming -/

/-- What posting with event sync leaves alone; a request may become triggered. -/
def Grows (w w' : World) : Prop :=
  ∀ q, (w'.mem q).type = (w.mem q).type ∧ (w'.mem q).peer = (w.mem q).peer ∧ (w'.mem q).id = (w.mem q).id ∧
    (w'.mem q).flags = (w.mem q).flags ∧ (w'.mem q).owner = (w.mem q).owner ∧
    ((w.mem q).trigger = true → (w'.mem q).trigger = true)

namespace Grows
variable {w w₁ w₂ w₃ : World}

theorem refl (w : World) : Grows w w := fun _ => ⟨rfl, rfl, rfl, rfl, rfl, id⟩

theorem trans (h₁ : Grows w₁ w₂) (h₂ : Grows w₂ w₃) : Grows w₁ w₃ := by
  intro q
  obtain ⟨a1, a2, a3, a4, a5, a6⟩ := h₁ q
  obtain ⟨b1, b2, b3, b4, b5, b6⟩ := h₂ q
  exact ⟨b1.trans a1, b2.trans a2, b3.trans a3, b4.trans a4, b5.trans a5, fun h => b6 (a6 h)⟩

theorem setReq (w : World) (p : Ptr) (g : Request → Request)
    (hg : ∀ r : Request, (g r).type = r.type ∧ (g r).peer = r.peer ∧ (g r).id = r.id ∧ (g r).flags = r.flags ∧
      (g r).owner = r.owner ∧ (r.trigger = true → (g r).trigger = true)) : Grows w (w.setReq p g) := by
  intro q
  exact w.setReq_rel (R := fun r r' => r'.type = r.type ∧ r'.peer = r.peer ∧ r'.id = r.id ∧ r'.flags = r.flags ∧
    r'.owner = r.owner ∧ (r.trigger = true → r'.trigger = true)) (fun _ => ⟨rfl, rfl, rfl, rfl, rfl, id⟩) (hg _) q

theorem arm (w : World) (c : Nat) (f : Flow) (p : Ptr) : Grows w (w.arm c f p) :=
  setReq w p (fun r => { r with trigger := true }) (fun _ => ⟨rfl, rfl, rfl, rfl, rfl, fun _ => rfl⟩)

theorem append (w : World) (c : Nat) (f : Flow) (p : Ptr) : Grows w (w.append c f p) := by
  unfold World.append
  split
  · exact refl w
  · split
    · exact refl w
    · rename_i q _
      exact (setReq w q (fun r => { r with next := some p }) (fun _ => ⟨rfl, rfl, rfl, rfl, rfl, id⟩)).trans
        (setReq _ p (fun r => { r with prev := some q }) (fun _ => ⟨rfl, rfl, rfl, rfl, rfl, id⟩))

theorem at_iff (h : Grows w₁ w₂) {p : Ptr} {c : Nat} {f : Flow} : w₂.At cfg p c f ↔ w₁.At cfg p c f := by
  obtain ⟨h1, h2, -⟩ := h p
  simp only [World.At, h1, h2]

theorem enqueueOk (h : Grows w₁ w₂) {ops : List StreamOp} (ho : EnqueueOk cfg w₁ ops) : EnqueueOk cfg w₂ ops := by
  refine ⟨ho.1, ?_⟩
  intro c f v cond hm
  obtain ⟨hcond, p, h1, h2, h3, h4⟩ := ho.2 c f v cond hm
  obtain ⟨-, -, e3, -, e5, e6⟩ := h p
  exact ⟨hcond, p, h.at_iff.mpr h1, by rw [e5]; exact h2, by rw [e3]; exact h3, e6 h4⟩

end Grows

/-- After appending, the request is the tail of the list. -/
theorem World.append_tail {w : World} {c : Nat} {p : Ptr} (h : w.appendOk c .tx p = true) :
    ((w.append c .tx p).clients c).lastPostedStreamReq .tx = some p := by
  unfold World.append
  cases hp : (w.clients c).postedStreamReq .tx with
  | none => simp
  | some hd =>
    cases hl : (w.clients c).lastPostedStreamReq .tx with
    | none => simp [World.appendOk, hp, hl] at h
    | some q => simp

section Track
variable (hK : ∀ l a, l.Basic → K l a) (hG : Good {})
include hK hG

omit hG in
theorem follows_clientTrackPostedStreamReq {a : Mach} {c : Nat} {p : Ptr} (s : Stream)
    (he : cfg.useEventSync = true) (hc : a.cur = some ⟨p, .prepared, true⟩) (hat : a.w.At cfg p c .tx)
    (hnow : nowait (a.w.mem p).flags = false)
    (htrig : (a.w.clients c).lastPostedTriggerId .tx = (a.w.mem p).id) :
    Follows cfg Good K a (clientTrackPostedStreamReq c p .tx s) (fun _ b =>
      b = ⟨(a.w.append c .tx p).addLog (.tracked c p (a.w.mem p).id s), none⟩ ∧
      (b.w.clients c).lastPostedStreamReq .tx = some p ∧ Grows a.w b.w ∧ PostMoves cfg Good a b) := by
  obtain ⟨w, cur⟩ := a
  obtain rfl : cur = some ⟨p, .prepared, true⟩ := hc
  unfold clientTrackPostedStreamReq
  refine Follows.world ?_
  refine Follows.require (fun _ _ _ => trivial) (fun hok => ?_)
  have hstep : Step cfg Good (.track c p s) ⟨w, some ⟨p, .prepared, true⟩⟩
      ⟨(w.append c .tx p).addLog (.tracked c p (w.mem p).id s), none⟩ := Step.track he hat hnow htrig hok
  refine Follows.update_last (.single ⟨.track c p s, hK _ _ trivial, hstep⟩) rfl
    ⟨rfl, World.append_tail hok, Grows.append w c .tx p, .single ⟨.track c p s, trivial, hstep⟩⟩

omit hK in
/-- Blocking the stream on a request, by the arming step `l`. -/
theorem follows_blockOnCompletion {a : Mach} {c : Nat} {f : Flow} {p : Ptr} {l : Lbl} (descs : List StreamOp)
    (hat : a.w.At cfg p c f) (ho : (a.w.mem p).owner ≠ none)
    (hl : (a.w.clients c).lastPostedTrackedId f < (a.w.mem p).id →
      K l a ∧ Step cfg Good l a ⟨a.w.arm c f p, a.cur⟩)
    (hops : EnqueueOk cfg a.w descs) :
    Follows cfg Good K a (blockOnCompletion c f p descs) (fun x b => EnqueueOk cfg b.w x.2 ∧
      ((a.w.clients c).lastPostedTrackedId f < (a.w.mem p).id ∧ b = ⟨a.w.arm c f p, a.cur⟩ ∨
        ¬ (a.w.clients c).lastPostedTrackedId f < (a.w.mem p).id ∧ b = a)) := by
  unfold blockOnCompletion
  refine Follows.client (Follows.request ?_)
  refine Follows.ite (fun hlt => ?_) (fun hn => .pure ⟨hops, .inr ⟨hn, rfl⟩⟩)
  refine Follows.update (b := ⟨a.w.arm c f p, a.cur⟩) (.single ⟨l, hl hlt⟩) rfl ?_
  refine Follows.returnCode hG (fun ans _ => .pure ⟨?_, .inl ⟨hlt, rfl⟩⟩)
  obtain ⟨h1, h2⟩ := (Grows.arm a.w c f p).enqueueOk hops
  constructor
  · intro d g v hm
    rcases List.mem_append.mp hm with hm | hm
    · exact h1 d g v hm
    · simp at hm
  · intro d g v cond hm
    rcases List.mem_append.mp hm with hm | hm
    · exact h2 d g v cond hm
    · rw [List.mem_singleton] at hm
      cases hm
      refine ⟨rfl, p, ?_, ?_, ?_, ?_⟩
      · rw [hat.2.2]
        exact (Grows.arm a.w c f p).at_iff.mpr hat
      · simpa [World.arm] using ho
      · simp [World.arm]
      · simp [World.arm]

omit hK in
/-- Blocking the stream on the request the call has just appended. -/
theorem follows_blockTail {a : Mach} {c : Nat} {p : Ptr} (descs : List StreamOp) (he : cfg.useEventSync = true)
    (hat : a.w.At cfg p c .tx) (ho : (a.w.mem p).owner ≠ none)
    (htail : (a.w.clients c).lastPostedStreamReq .tx = some p) (hA : K (.armTail c p) a)
    (hops : EnqueueOk cfg a.w descs) :
    Follows cfg Good K a (blockOnCompletion c .tx p descs) (fun x b => b.cur = a.cur ∧ EnqueueOk cfg b.w x.2 ∧
      Grows a.w b.w ∧ PostMoves cfg Good a b) := by
  refine (follows_blockOnCompletion hG descs hat ho (fun hlt => ⟨hA, Step.armTail he hat htail hlt⟩) hops).conseq ?_
  rintro x b ⟨hok, ⟨hlt, rfl⟩ | ⟨-, rfl⟩⟩
  · exact ⟨rfl, hok, Grows.arm _ _ _ _, .single ⟨.armTail c p, trivial, Step.armTail he hat htail hlt⟩⟩
  · exact ⟨rfl, hok, .refl _, .refl⟩

end Track

/-! ## Sends on a stream -/

section Sends
variable (hK : ∀ l a, l.Basic → K l a) (hE : ∀ s ops a, K (.enqueue s ops) a) (hG : Good {})
include hK hE hG

omit hK hE hG in
theorem World.stamp_trigger (w : World) (c : Nat) (p : Ptr) :
    ((w.stamp c .tx p).clients c).lastPostedTriggerId .tx = (w.mem p).id := by
  simp [World.stamp]

omit hK hE hG in
theorem enqueueOk_write (w : World) (c v : Nat) : EnqueueOk cfg w [.write (.lastTriggerId c .tx) v] := by
  constructor <;> simp

omit hE hG in
/-- Stamping the request the call holds, or a prepared one it was given. -/
theorem Follows.stamp {β : Type} {a : Mach} {c : Nat} {p : Ptr} {f : Unit → M β} {T : β → Mach → Prop}
    (he : cfg.useEventSync = true) (hat : a.w.At cfg p c .tx)
    (hp : a.cur = some ⟨p, .prepared, true⟩ ∨ ((a.w.mem p).owner = some .mpSendPrepare ∧ a.cur = none ∧
      (a.w.clients c).lastPostedTriggerId .tx < (a.w.mem p).id))
    (h : ∀ d, d = ⟨a.w.stamp c .tx p, some ⟨p, .prepared, true⟩⟩ → d.cur = some ⟨p, .prepared, true⟩ →
      d.w.mem = a.w.mem → (d.w.clients c).lastPostedTriggerId .tx = (d.w.mem p).id → PostMoves cfg Good a d →
      Follows cfg Good K d (f ()) T) :
    Follows cfg Good K a (LibMp.update (fun w => w.stamp c .tx p) >>= f) T := by
  have hstep : Step cfg Good (.stamp c p) a ⟨a.w.stamp c .tx p, some ⟨p, .prepared, true⟩⟩ := Step.stamp he hat hp
  exact Follows.update (.single ⟨.stamp c p, hK _ _ trivial, hstep⟩) rfl
    (h _ rfl rfl rfl (World.stamp_trigger a.w c p) (.single ⟨.stamp c p, trivial, hstep⟩))

omit hE in
/-- The end of the blocking posts: track the request and block the stream on it. -/
theorem Follows.trackAndBlock {β : Type} {a : Mach} {c : Nat} {p : Ptr} {s : Stream} {descs : List StreamOp}
    {f : Int × List StreamOp → M β} {T : β → Mach → Prop} (he : cfg.useEventSync = true)
    (hc : a.cur = some ⟨p, .prepared, true⟩) (hat : a.w.At cfg p c .tx) (ho : (a.w.mem p).owner ≠ none)
    (hnow : nowait (a.w.mem p).flags = false)
    (htrig : (a.w.clients c).lastPostedTriggerId .tx = (a.w.mem p).id)
    (hA : ∀ b, PostMoves cfg Good a b → K (.armTail c p) b) (hops : EnqueueOk cfg a.w descs)
    (h : ∀ x b, b.cur = none → EnqueueOk cfg b.w x.2 → Grows a.w b.w → PostMoves cfg Good a b →
      Follows cfg Good K b (f x) T) :
    Follows cfg Good K a (clientTrackPostedStreamReq c p .tx s >>= fun _ => blockOnCompletion c .tx p descs >>= f)
      T := by
  refine Follows.bind (follows_clientTrackPostedStreamReq hK s he hc hat hnow htrig) ?_
  rintro _ b ⟨hb, htail, hgrow, hmoves⟩
  have hbc : b.cur = none := by rw [hb]
  refine Follows.bind (follows_blockTail hG descs he (hgrow.at_iff.mpr hat) ?_ htail (hA b hmoves)
    (hgrow.enqueueOk hops)) ?_
  · rw [(hgrow p).2.2.2.2.1]
    exact ho
  · rintro x d ⟨h1, h2, h3, h4⟩
    exact h x d (h1.trans hbc) h2 (hgrow.trans h3) (hmoves.trans h4)

omit hK in
/-- The last call of the posts: enqueue the descriptors. -/
theorem follows_postDescriptors {a : Mach} (ha : a.Built) (s : Stream) (descs : List StreamOp)
    (hops : EnqueueOk cfg a.w descs) :
    Follows cfg Good K a (gdsStreamPostDescriptors s descs) (fun _ d => d.Built) := by
  refine (follows_gdsStreamPostDescriptors hG a s descs (hE _ _ _) hops).conseq ?_
  rintro rc d ⟨hd, -⟩
  rcases hd with ⟨-, rfl⟩ | ⟨-, rfl⟩ <;> exact ha

theorem follows_mpSendOnStream (buf : Nat) (size : Int) (peer : Nat) (reg : Reg) (s : Stream) (a : Mach)
    (ha : a.cur = none)
    (hA : ∀ b c p, PostMoves cfg Good a b → cfg.clientIndex peer = some c → K (.armTail c p) b) :
    Follows cfg Good K a (mpSendOnStream cfg buf size peer reg s) (fun _ b => b.Built) := by
  unfold mpSendOnStream
  refine Follows.clientOf (fun c hc => ?_)
  refine Follows.ite (fun he => ?_) (fun _ => ?_)
  · refine Follows.start hK _ (fun _ _ => rfl) ha hc (by decide) rfl (.inl rfl) (by intro h; cases h)
      (fun p r hf _ => buildSend_ok hf c 1 .sgEntry _) (fun p b _ _ hb hab => ?_)
    refine Follows.stamp hK he hb.at_ (.inl hb.cur) (fun d _ hdc hdm hdt hbd => ?_)
    refine Follows.request (Follows.returnCode hG (fun ans _ => ?_))
    refine Follows.ite (fun _ => .pure (built_of_cur hdc)) (fun _ => ?_)
    refine Follows.trackAndBlock hK hG he hdc (by rw [World.At, hdm]; exact hb.at_) (by rw [hdm, hb.owner]; simp)
      (by rw [hdm]; exact hb.signaled rfl) hdt (fun e hde => hA e c p ((hab.trans hbd).trans hde) hc)
      (enqueueOk_write _ _ _) (fun x e hec hops _ _ => ?_)
    obtain ⟨ret, descs⟩ := x
    have he' : e.Built := by intro q st; rw [hec]; simp
    refine Follows.ite (fun _ => .pure he') (fun _ => ?_)
    refine Follows.bind (follows_postDescriptors hE hG he' s descs hops) (fun ret' k hk => ?_)
    exact Follows.ite (fun _ => .pure hk) (fun _ => .pure hk)
  · refine Follows.start hK _ (fun _ _ => rfl) ha hc (by decide) rfl (.inr trivial) (by intro h; cases h)
      (fun p r hf _ => buildSend_ok hf c 1 .sgEntry _) (fun p b _ _ hb _ => ?_)
    refine Follows.bind (follows_gdsStreamQueueSend hK hE hG s hb.cur isPending_pending hb.at_) (fun ret d hd => ?_)
    have hd' := built_of_post hb.cur rfl hd.1
    refine Follows.ite (fun _ => .pure hd') (fun _ => ?_)
    have hops : EnqueueOk cfg d.w [.waitLastCq c .tx] := enqueueOk_of_forall (by simp)
    refine Follows.bind (follows_call hG (b := ⟨d.w.enqueue s [.waitLastCq c .tx], d.cur⟩)
      (.single ⟨.enqueue s [.waitLastCq c .tx], hE _ _ _, Step.enqueue hops.1 hops.2⟩) rfl) ?_
    rintro ret' e ⟨he, -⟩
    have he' : e.Built := by rcases he with ⟨-, rfl⟩ | ⟨-, rfl⟩ <;> exact hd'
    exact Follows.ite (fun _ => .pure he') (fun _ => .pure he')

theorem follows_mpIsendOnStream (buf : Nat) (size : Int) (peer : Nat) (reg : Reg) (s : Stream) (a : Mach)
    (ha : a.cur = none) : Follows cfg Good K a (mpIsendOnStream cfg buf size peer reg s) (fun _ b => b.Built) := by
  unfold mpIsendOnStream
  refine Follows.clientOf (fun c hc => ?_)
  refine Follows.ite (fun he => ?_) (fun _ => ?_)
  · refine Follows.start hK _ (fun _ _ => rfl) ha hc (by decide) rfl (.inl rfl) (by intro h; cases h)
      (fun p r hf _ => buildSend_ok hf c 1 .sgEntry _) (fun p b _ _ hb hab => ?_)
    refine Follows.stamp hK he hb.at_ (.inl hb.cur) (fun d _ hdc hdm hdt _ => ?_)
    refine Follows.request (Follows.returnCode hG (fun ans _ => ?_))
    refine Follows.ite (fun _ => .pure (built_of_cur hdc)) (fun _ => ?_)
    refine Follows.bind (follows_gdsStreamPostDescriptors hG d s _ (hE _ _ _) (enqueueOk_write d.w c _)) ?_
    rintro ret e ⟨hde, -⟩
    -- the enqueue leaves the request in the hands of the call, whatever it returns
    have hk : e.cur = d.cur ∧ e.w.mem = d.w.mem ∧ e.w.clients = d.w.clients := by
      rcases hde with ⟨-, rfl⟩ | ⟨-, rfl⟩ <;> exact ⟨rfl, rfl, rfl⟩
    have hec : e.cur = some ⟨p, .prepared, true⟩ := by rw [hk.1]; exact hdc
    refine Follows.ite (fun _ => .pure (built_of_cur hec)) (fun _ => ?_)
    refine Follows.bind (follows_clientTrackPostedStreamReq hK s he hec
      (by rw [World.At, hk.2.1, hdm]; exact hb.at_) (by rw [hk.2.1, hdm]; exact hb.signaled rfl)
      (by rw [hk.2.2, hk.2.1]; exact hdt)) ?_
    rintro _ k ⟨hk, -⟩
    exact .pure (by intro q st; rw [hk]; simp)
  · refine Follows.start hK _ (fun _ _ => rfl) ha hc (by decide) rfl (.inr trivial) (by intro h; cases h)
      (fun p r hf _ => buildSend_ok hf c 1 .sgEntry _) (fun p b _ _ hb _ => ?_)
    refine Follows.bind (follows_mpPostSendOnStream hK hE hG s isPending_nowait b hb.cur hb.at_) (fun ret d hd => ?_)
    refine Follows.ite (fun _ => .pure hd.1) (fun _ => ?_)
    exact follows_prepareEnd hK hG hd.1 c .tx p _ _

omit hE hG in
theorem follows_mpSendPrepare (he : cfg.useEventSync = true) (buf : Nat) (size : Int) (peer : Nat) (reg : Reg)
    (a : Mach) (ha : a.cur = none) :
    Follows cfg Good K a (mpSendPrepare cfg buf size peer reg) (fun _ b => b.Built) := by
  unfold mpSendPrepare
  refine Follows.clientOf (fun c hc => ?_)
  refine Follows.start hK _ (fun _ _ => rfl) ha hc (by decide) rfl (.inl rfl) (fun _ => rfl)
    (fun p r hf _ => buildSend_ok hf c 1 .sgEntry _) (fun p b _ _ hb _ => ?_)
  exact Follows.ite (fun _ => .pure (built_of_cur hb.cur)) (fun hn => absurd he hn)

/-! ## Posting prepared sends -/

/-- A request of `mp_send_prepare`, as the post calls find it. -/
structure PreparedSend (w : World) (p : Ptr) : Prop where
  owner : (w.mem p).owner = some .mpSendPrepare
  type : (w.mem p).type ≠ .null
  flow : (w.mem p).type.flow = .tx
  flags : nowait (w.mem p).flags = false

omit hK hE hG in
theorem PreparedSend.grows {w w' : World} {p : Ptr} (h : PreparedSend w p) (hg : Grows w w') : PreparedSend w' p := by
  obtain ⟨h1, -, -, h4, h5, -⟩ := hg p
  exact ⟨by rw [h5]; exact h.owner, by rw [h1]; exact h.type, by rw [h1]; exact h.flow, by rw [h4]; exact h.flags⟩

omit hE hG in
theorem Follows.touch {β : Type} {a : Mach} {p : Ptr} {s : Option Stream} {f : Unit → M β} {T : β → Mach → Prop}
    (h : ∀ d, d.cur = a.cur → d.w.clients = a.w.clients → Grows a.w d.w → PostMoves cfg Good a d →
      Follows cfg Good K d (f ()) T) :
    Follows cfg Good K a (LibMp.update (fun w => w.setReq p fun r => { r with stream := s }) >>= f) T := by
  have hstep : Step cfg Good (.touch p) a ⟨a.w.setReq p fun r => { r with stream := s }, a.cur⟩ := Step.touch s
  refine Follows.update (.single ⟨.touch p, hK _ _ trivial, hstep⟩) rfl
    (h _ rfl rfl ?_ (.single ⟨.touch p, trivial, hstep⟩))
  exact Grows.setReq a.w p (fun r => { r with stream := s }) (fun _ => ⟨rfl, rfl, rfl, rfl, rfl, id⟩)

theorem follows_mpSendPostOnStream (he : cfg.useEventSync = true) (p : Ptr) (s : Stream) (a : Mach) (ha : a.cur = none)
    (hp : PreparedSend a.w p)
    (hA : ∀ b c, PostMoves cfg Good a b → cfg.clientIndex (a.w.mem p).peer = some c → K (.armTail c p) b) :
    Follows cfg Good K a (mpSendPostOnStream cfg p s) (fun _ b => b.Built) := by
  unfold mpSendPostOnStream
  refine Follows.request (Follows.require (fun _ _ _ => trivial) (fun hst => ?_))
  refine Follows.clientOf (fun c hc => ?_)
  refine Follows.touch hK (fun d hdc hdcl hgrow hpost => ?_)
  have hdc' : d.cur = none := hdc.trans ha
  have hd : d.Built := by intro q st; rw [hdc']; simp
  have hdp := hp.grows hgrow
  have hat : d.w.At cfg p c .tx := hgrow.at_iff.mpr ⟨hc, hp.type, hp.flow⟩
  refine Follows.ite (fun _ => ?_) (fun hn => absurd he hn)
  refine Follows.require (fun _ _ _ => trivial) (fun _ => ?_)
  refine Follows.client ?_
  rw [hp.flow]
  refine Follows.ite (fun _ => .pure hd) (fun hlt => ?_)
  have hid : (d.w.mem p).id = (a.w.mem p).id := (hgrow p).2.2.1
  refine Follows.stamp hK he hat (.inr ⟨hdp.owner, hdc', by rw [hid]; exact Nat.lt_of_not_le hlt⟩)
    (fun e _ hec hem het hde => ?_)
  refine Follows.returnCode hG (fun ans _ => ?_)
  refine Follows.ite (fun _ => .pure (built_of_cur hec)) (fun _ => ?_)
  refine Follows.trackAndBlock hK hG he hec (by rw [World.At, hem]; exact hat) (by rw [hem, hdp.owner]; simp)
    (by rw [hem]; exact hdp.flags) het (fun k hek => hA k c ((hpost.trans hde).trans hek) hc)
    (enqueueOk_write _ _ _) (fun x k hkc hops _ _ => ?_)
  obtain ⟨ret, descs⟩ := x
  have hk : k.Built := by intro q st; rw [hkc]; simp
  exact Follows.ite (fun _ => .pure hk) (fun _ => follows_postDescriptors hE hG hk s descs hops)

theorem follows_mpIsendPostOnStream (he : cfg.useEventSync = true) (p : Ptr) (s : Stream) (a : Mach)
    (ha : a.cur = none) (hp : PreparedSend a.w p) :
    Follows cfg Good K a (mpIsendPostOnStream cfg p s) (fun _ b => b.Built) := by
  unfold mpIsendPostOnStream
  refine Follows.request (Follows.require (fun _ _ _ => trivial) (fun hst => ?_))
  refine Follows.touch hK (fun d hdc hdcl hgrow hpost => ?_)
  have hdc' : d.cur = none := hdc.trans ha
  have hd : d.Built := by intro q st; rw [hdc']; simp
  have hdp := hp.grows hgrow
  refine Follows.ite (fun _ => ?_) (fun hn => absurd he hn)
  refine Follows.clientOf (fun c hc => ?_)
  have hat : d.w.At cfg p c .tx := hgrow.at_iff.mpr ⟨hc, hp.type, hp.flow⟩
  refine Follows.require (fun _ _ _ => trivial) (fun _ => ?_)
  refine Follows.client ?_
  rw [hp.flow]
  refine Follows.ite (fun _ => .pure hd) (fun hlt => ?_)
  have hid : (d.w.mem p).id = (a.w.mem p).id := (hgrow p).2.2.1
  refine Follows.stamp hK he hat (.inr ⟨hdp.owner, hdc', by rw [hid]; exact Nat.lt_of_not_le hlt⟩)
    (fun e _ hec hem het hde => ?_)
  refine Follows.returnCode hG (fun ans _ => ?_)
  refine Follows.bind (follows_gdsStreamPostDescriptors hG e s _ (hE _ _ _) (enqueueOk_write e.w c _)) ?_
  rintro ret k ⟨hk, -⟩
  have hke : k.cur = e.cur ∧ k.w.mem = e.w.mem ∧ k.w.clients = e.w.clients := by
    rcases hk with ⟨-, rfl⟩ | ⟨-, rfl⟩ <;> exact ⟨rfl, rfl, rfl⟩
  have hkc : k.cur = some ⟨p, .prepared, true⟩ := hke.1.trans hec
  refine Follows.ite (fun _ => .pure (built_of_cur hkc)) (fun _ => ?_)
  refine Follows.bind (follows_clientTrackPostedStreamReq hK s he hkc (by rw [World.At, hke.2.1, hem]; exact hat)
    (by rw [hke.2.1, hem]; exact hdp.flags) (by rw [hke.2.2, hke.2.1]; exact het)) ?_
  rintro _ j ⟨hj, -⟩
  exact .pure (by intro q st; rw [hj]; simp)

omit hE in
/-- The loop of the batched posts. -/
theorem follows_postAllEvent (he : cfg.useEventSync = true) (blocking : Bool) (s : Stream) {C : Nat → Prop}
    (ps : List Ptr) (descs : List StreamOp) (a : Mach) (ha : a.cur = none) (hps : ∀ p ∈ ps, PreparedSend a.w p)
    (hC : ∀ p ∈ ps, ∀ c, cfg.clientIndex (a.w.mem p).peer = some c → C c)
    (hA : blocking = true → ∀ b c q, PostMoves cfg Good a b → C c → K (.armTail c q) b)
    (hops : EnqueueOk cfg a.w descs) :
    Follows cfg Good K a (postAllEvent cfg blocking s ps descs) (fun x b => b.Built ∧ EnqueueOk cfg b.w x.2) := by
  induction ps generalizing a descs with
  | nil => exact .pure ⟨by intro q st; rw [ha]; simp, hops⟩
  | cons p rest ih =>
    have hp := hps p List.mem_cons_self
    have ha' : a.Built := by intro q st; rw [ha]; simp
    unfold postAllEvent
    refine Follows.request (Follows.clientOf (fun c hc => ?_))
    have hat : a.w.At cfg p c .tx := ⟨hc, hp.type, hp.flow⟩
    refine Follows.require (fun _ _ _ => trivial) (fun _ => ?_)
    refine Follows.client ?_
    rw [hp.flow]
    refine Follows.ite (fun _ => .pure ⟨ha', hops⟩) (fun hlt => ?_)
    refine Follows.stamp hK he hat (.inr ⟨hp.owner, ha, Nat.lt_of_not_le hlt⟩) (fun d _ hdc hdm hdt had => ?_)
    have hgd : Grows a.w d.w := by intro q; rw [hdm]; exact ⟨rfl, rfl, rfl, rfl, rfl, id⟩
    have hops' : EnqueueOk cfg d.w (descs ++ [.write (.lastTriggerId c .tx) (a.w.mem p).id]) := by
      obtain ⟨h1, h2⟩ := hgd.enqueueOk hops
      constructor
      · intro e f v hm
        rcases List.mem_append.mp hm with hm | hm
        · exact h1 e f v hm
        · simp at hm
      · intro e f v cond hm
        rcases List.mem_append.mp hm with hm | hm
        · exact h2 e f v cond hm
        · simp at hm
    refine Follows.returnCode hG (fun ans _ => ?_)
    dsimp only
    refine Follows.ite (fun _ => .pure ⟨built_of_cur hdc, hops'⟩) (fun _ => ?_)
    -- what is left of the batch, from any state the posting steps reach
    have hrest : ∀ (b : Mach) (descs' : List StreamOp), b.cur = none → Grows a.w b.w → PostMoves cfg Good a b →
        EnqueueOk cfg b.w descs' →
        Follows cfg Good K b (postAllEvent cfg blocking s rest descs')
          (fun x b => b.Built ∧ EnqueueOk cfg b.w x.2) := by
      intro b descs' hb hg hpm hok
      refine ih descs' b hb (fun q hq => (hps q (List.mem_cons_of_mem p hq)).grows hg) ?_
        (fun hbl k e q hk hCe => hA hbl k e q (hpm.trans hk) hCe) hok
      intro q hq e hqe
      rw [(hg q).2.1] at hqe
      exact hC q (List.mem_cons_of_mem p hq) e hqe
    have hdat : d.w.At cfg p c .tx := by rw [World.At, hdm]; exact hat
    have hdnow : nowait (d.w.mem p).flags = false := by rw [hdm]; exact hp.flags
    cases blocking with
    | false =>
      refine Follows.bind (follows_clientTrackPostedStreamReq hK s he hdc hdat hdnow hdt) ?_
      rintro _ b ⟨hb, -, hgb, hpm⟩
      exact hrest b _ (by rw [hb]) (hgd.trans hgb) (had.trans hpm) (hgb.enqueueOk hops')
    | true =>
      refine Follows.trackAndBlock hK hG he hdc hdat (by rw [hdm, hp.owner]; simp) hdnow hdt
        (fun b hb => hA rfl b c p (had.trans hb) (hC p List.mem_cons_self c hc)) hops' (fun x b hb hok hgb hpm => ?_)
      obtain ⟨ret, descs'⟩ := x
      refine Follows.ite (fun _ => .pure ⟨by intro q st; rw [hb]; simp, hok⟩) (fun _ => ?_)
      exact hrest b _ hb (hgd.trans hgb) (had.trans hpm) hok

theorem follows_mpSendPostAllOnStream (he : cfg.useEventSync = true) (ps : List Ptr) (s : Stream) (a : Mach)
    (ha : a.cur = none) (hps : ∀ p ∈ ps, PreparedSend a.w p)
    (hA : ∀ b c q, PostMoves cfg Good a b → (∃ p ∈ ps, cfg.clientIndex (a.w.mem p).peer = some c) →
      K (.armTail c q) b) :
    Follows cfg Good K a (mpSendPostAllOnStream cfg ps s) (fun _ b => b.Built) := by
  unfold mpSendPostAllOnStream
  refine Follows.ite (fun _ => ?_) (fun hn => absurd he hn)
  refine Follows.bind (follows_postAllEvent hK hG he true s ps [] a ha hps (fun p hp c hc => ⟨p, hp, hc⟩)
    (fun _ => hA) ⟨by simp, by simp⟩) ?_
  rintro ⟨ret, descs⟩ b ⟨hb, hok⟩
  exact Follows.ite (fun _ => .pure hb) (fun _ => follows_postDescriptors hE hG hb s descs hok)

theorem follows_mpIsendPostAllOnStream (he : cfg.useEventSync = true) (ps : List Ptr) (s : Stream) (a : Mach)
    (ha : a.cur = none) (hps : ∀ p ∈ ps, PreparedSend a.w p) :
    Follows cfg Good K a (mpIsendPostAllOnStream cfg ps s) (fun _ b => b.Built) := by
  unfold mpIsendPostAllOnStream
  refine Follows.ite (fun _ => ?_) (fun hn => absurd he hn)
  refine Follows.bind (follows_postAllEvent (C := fun _ => True) hK hG he false s ps [] a ha hps
    (fun _ _ _ _ => trivial) (by intro h; cases h) ⟨by simp, by simp⟩) ?_
  rintro ⟨ret, descs⟩ b ⟨hb, hok⟩
  exact Follows.ite (fun _ => .pure hb) (fun _ => follows_postDescriptors hE hG hb s descs hok)

end Sends

/-! ## Waits on a stream -/

section Waits
variable (hK : ∀ l a, l.Basic → K l a) (hE : ∀ s ops a, K (.enqueue s ops) a) (hG : Good {})
include hK hE hG

theorem follows_gdsStreamPostWaitCq (a : Mach) (s : Stream) (p : Ptr) :
    Follows cfg Good K a (gdsStreamPostWaitCq s p) (fun _ b => b.cur = a.cur ∧ b.w.mem = a.w.mem) := by
  unfold gdsStreamPostWaitCq
  refine Follows.update (b := ⟨a.w.give p, a.cur⟩) (.single ⟨.give p, hK _ _ trivial, Step.give⟩) rfl ?_
  have hops : EnqueueOk cfg (a.w.give p) [.waitCq (a.w.mem p).gdsWaitInfo] := enqueueOk_of_forall (by simp)
  refine (follows_call hG (b := ⟨(a.w.give p).enqueue s [.waitCq (a.w.mem p).gdsWaitInfo], a.cur⟩)
    (.single ⟨.enqueue s _, hE _ _ _, Step.enqueue hops.1 hops.2⟩) rfl).conseq ?_
  rintro rc d ⟨⟨-, rfl⟩ | ⟨-, rfl⟩, -⟩ <;> exact ⟨rfl, rfl⟩

/-- `mp_wait_on_stream`: with event sync it arms the request, without it makes
the request pending. -/
theorem follows_mpWaitOnStream (p : Ptr) (s : Stream) (a : Mach) (ha : a.cur = none)
    (hA : cfg.useEventSync = true → (a.w.mem p).owner ≠ none ∧ ∀ c, cfg.clientIndex (a.w.mem p).peer = some c →
      (a.w.mem p).status ≠ .complete →
      (a.w.clients c).lastPostedTrackedId (a.w.mem p).type.flow < (a.w.mem p).id →
      K (.arm c (a.w.mem p).type.flow p) a)
    (hW : cfg.useEventSync = false → (a.w.mem p).canBeWaited = true → K (.waitStream p) a) :
    Follows cfg Good K a (mpWaitOnStream cfg p s) (fun _ b => b.cur = none) := by
  unfold mpWaitOnStream
  refine Follows.request (Follows.clientOf (fun c hc => ?_))
  refine Follows.require (fun _ _ _ => trivial) (fun hty => ?_)
  have hat : a.w.At cfg p c (a.w.mem p).type.flow := ⟨hc, of_decide_eq_true hty, rfl⟩
  refine Follows.ite (fun he => ?_) (fun he => ?_)
  · -- a complete request, and one whose id was waited for, needs no wait
    obtain ⟨ho, hA⟩ := hA he
    refine Follows.ite (fun _ => .pure ha) (fun hst => ?_)
    refine Follows.client ?_
    refine Follows.ite (fun hlt => ?_) (fun _ => .pure ha)
    refine Follows.update (b := ⟨a.w.arm c (a.w.mem p).type.flow p, a.cur⟩)
      (.single ⟨.arm c _ p, hA c hc hst hlt, Step.arm he hat ho hst hlt⟩) rfl ?_
    refine Follows.returnCode hG (fun ans _ => ?_)
    refine Follows.ite (fun _ => .pure ha) (fun _ => ?_)
    refine (follows_gdsStreamPostDescriptors hG _ s _ (hE _ _ _) ⟨by simp, ?_⟩).conseq ?_
    · intro d g v cond hm
      rw [List.mem_singleton] at hm
      cases hm
      refine ⟨rfl, p, (Grows.arm a.w c _ p).at_iff.mpr hat, ?_, ?_, ?_⟩
      · simpa [World.arm] using ho
      · simp [World.arm]
      · simp [World.arm]
    · rintro rc d ⟨⟨-, rfl⟩ | ⟨-, rfl⟩, -⟩ <;> exact ha
  · have he' : cfg.useEventSync = false := by simpa using he
    refine Follows.ite (fun _ => .pure ha) (fun hcan => ?_)
    refine Follows.require (fun _ _ _ => trivial) (fun hst => ?_)
    obtain ⟨w, cur⟩ := a
    obtain rfl : cur = none := ha
    refine Follows.update (b := ⟨w.setReq p fun r => { r with stream := some s, status := .pending }, none⟩)
      (.single ⟨.waitStream p, hW he' (by simpa using hcan), Step.waitStream (some s) he' (by simpa using hst)⟩) rfl ?_
    exact (follows_gdsStreamPostWaitCq hK hE hG _ s p).conseq (fun _ b hb => hb.1)

/-- The conditions of the arms of `mp_wait_all_on_stream`, in its order. -/
def ArmAll (cfg : Config) (K : Lbl → Mach → Prop) (a : Mach) : List Ptr → Prop
  | [] => True
  | p :: rest =>
    (a.w.mem p).owner ≠ none ∧ ∀ c, cfg.clientIndex (a.w.mem p).peer = some c → (a.w.mem p).status ≠ .complete →
      if (a.w.clients c).lastPostedTrackedId (a.w.mem p).type.flow < (a.w.mem p).id then
        K (.arm c (a.w.mem p).type.flow p) a ∧ ArmAll cfg K ⟨a.w.arm c (a.w.mem p).type.flow p, a.cur⟩ rest
      else ArmAll cfg K a rest

omit hK hE in
theorem follows_waitAllEvent (he : cfg.useEventSync = true) (ps : List Ptr) (descs : List StreamOp) (a : Mach)
    (hA : ArmAll cfg K a ps) (hops : EnqueueOk cfg a.w descs) :
    Follows cfg Good K a (waitAllEvent cfg ps descs) (fun x b => b.cur = a.cur ∧ EnqueueOk cfg b.w x.2) := by
  induction ps generalizing a descs with
  | nil => exact .pure ⟨rfl, hops⟩
  | cons p rest ih =>
    obtain ⟨ho, hA⟩ := hA
    unfold waitAllEvent
    refine Follows.request (Follows.clientOf (fun c hc => ?_))
    refine Follows.require (fun _ _ _ => trivial) (fun hty => ?_)
    refine Follows.require (fun _ _ _ => trivial) (fun hst => ?_)
    have hst' : (a.w.mem p).status ≠ .complete := of_decide_eq_true hst
    have hat : a.w.At cfg p c (a.w.mem p).type.flow := ⟨hc, of_decide_eq_true hty, rfl⟩
    have hA' := hA c hc hst'
    refine Follows.bind (follows_blockOnCompletion hG (l := .arm c (a.w.mem p).type.flow p) descs hat ho
      (fun hlt => ?_) hops) ?_
    · rw [if_pos hlt] at hA'
      exact ⟨hA'.1, Step.arm he hat ho hst' hlt⟩
    · rintro ⟨ret, descs'⟩ b ⟨hok, ⟨hlt, rfl⟩ | ⟨hn, rfl⟩⟩
      · rw [if_pos hlt] at hA'
        refine Follows.ite (fun _ => .pure ⟨rfl, hok⟩) (fun _ => ?_)
        exact ih descs' _ hA'.2 hok
      · rw [if_neg hn] at hA'
        refine Follows.ite (fun _ => .pure ⟨rfl, hok⟩) (fun _ => ?_)
        exact ih descs' b hA' hok

omit hK hE hG in
/-- The loop of `mp_wait_all_on_stream` without event sync, begun in the world
`w₀`: an element it makes pending has the status it had there. -/
theorem follows_waitAllCopy (he : cfg.useEventSync = false) (s : Stream) (w₀ : World) (ps : List Ptr) (a : Mach)
    (ha : a.cur = none) (hcan : ∀ q, (a.w.mem q).canBeWaited = (w₀.mem q).canBeWaited)
    (hst : ∀ q, (a.w.mem q).status = (w₀.mem q).status ∨ (a.w.mem q).status = .pending)
    (hW : ∀ b p, p ∈ ps.takeWhile (fun q => (w₀.mem q).canBeWaited) → (b.w.mem p).status = (w₀.mem p).status →
      K (.waitStream p) b) :
    Follows cfg Good K a (waitAllCopy s ps) (fun _ b => b.cur = none) := by
  induction ps generalizing a with
  | nil => exact .pure ha
  | cons p rest ih =>
    unfold waitAllCopy
    refine Follows.request (Follows.require (fun _ _ _ => trivial) (fun _ => ?_))
    refine Follows.ite (fun _ => .pure ha) (fun hcanp => ?_)
    refine Follows.require (fun _ _ _ => trivial) (fun hstp => ?_)
    have hw : (w₀.mem p).canBeWaited = true := by
      rw [← hcan]
      simpa using hcanp
    have hstp' : (a.w.mem p).status = .pendingNowait ∨ (a.w.mem p).status = .complete := by simpa using hstp
    -- an earlier turn has not made it pending: the assertion would fail
    have hkp : K (.waitStream p) a := by
      refine hW a p (by simp [hw]) ?_
      rcases hst p with h | h
      · exact h
      · rw [h] at hstp'
        rcases hstp' with h | h <;> cases h
    obtain ⟨w, cur⟩ := a
    obtain rfl : cur = none := ha
    refine Follows.update (b := ⟨w.setReq p fun r => { r with stream := some s, status := .pending }, none⟩)
      (.single ⟨.waitStream p, hkp, Step.waitStream (some s) he hstp'⟩) rfl ?_
    refine Follows.bind (ih _ rfl ?_ ?_ ?_) (fun x b hb => .pure hb)
    · intro q
      simp only [World.setReq_mem]
      split
      · rename_i hq; rw [hq, ← hcan]; rfl
      · exact hcan q
    · intro q
      simp only [World.setReq_mem]
      split
      · exact .inr rfl
      · exact hst q
    · intro b q hq hqs
      refine hW b q ?_ hqs
      rw [List.takeWhile_cons, hw]
      exact List.mem_cons_of_mem p hq

omit hE hG in
theorem moves_giveAll (ps : List Ptr) (a : Mach) :
    Moves (Move cfg Good K) a ⟨ps.foldl World.give a.w, a.cur⟩ := by
  induction ps generalizing a with
  | nil => exact .refl
  | cons p rest ih =>
    exact .head ⟨.give p, hK _ _ trivial, Step.give⟩ (ih ⟨a.w.give p, a.cur⟩)

theorem follows_mpWaitAllOnStream (ps : List Ptr) (s : Stream) (a : Mach) (ha : a.cur = none)
    (hA : cfg.useEventSync = true → ArmAll cfg K a ps)
    (hW : cfg.useEventSync = false → ∀ b p, p ∈ ps.takeWhile (fun q => (a.w.mem q).canBeWaited) →
      (b.w.mem p).status = (a.w.mem p).status → K (.waitStream p) b) :
    Follows cfg Good K a (mpWaitAllOnStream cfg ps s) (fun _ b => b.cur = none) := by
  unfold mpWaitAllOnStream
  refine Follows.ite (fun _ => .pure ha) (fun _ => ?_)
  refine Follows.ite (fun he => ?_) (fun he => ?_)
  · refine Follows.bind (follows_waitAllEvent hG he ps [] a (hA he) ⟨by simp, by simp⟩) ?_
    rintro ⟨ret, descs⟩ b ⟨hb, hok⟩
    have hb' := hb.trans ha
    refine Follows.ite (fun _ => .pure hb') (fun _ => ?_)
    refine (follows_gdsStreamPostDescriptors hG b s descs (hE _ _ _) hok).conseq ?_
    rintro rc d ⟨⟨-, rfl⟩ | ⟨-, rfl⟩, -⟩ <;> exact hb'
  · have he' : cfg.useEventSync = false := by simpa using he
    refine Follows.bind (follows_waitAllCopy he' s a.w ps a ha (fun _ => rfl) (fun _ => .inl rfl) (hW he')) ?_
    rintro ⟨ret, waits⟩ b hb
    refine Follows.ite (fun _ => .pure hb) (fun _ => ?_)
    unfold gdsStreamPostWaitCqAll
    refine Follows.update (moves_giveAll hK ps b) rfl ?_
    have hops : EnqueueOk cfg (ps.foldl World.give b.w) (waits.map .waitCq) := enqueueOk_of_forall (by simp)
    refine (follows_call hG (b := ⟨(ps.foldl World.give b.w).enqueue s (waits.map .waitCq), b.cur⟩)
      (.single ⟨.enqueue s _, hE _ _ _, Step.enqueue hops.1 hops.2⟩) rfl).conseq ?_
    rintro rc d ⟨⟨-, rfl⟩ | ⟨-, rfl⟩, -⟩ <;> exact hb

/-! Wait descriptors: the status changes when the descriptor is made. -/

omit hE hG in
theorem follows_addWaitDesc (he : cfg.useEventSync = false) (dq : Nat) (p : Ptr) (a : Mach) (ha : a.cur = none)
    (hW : ∀ b : Mach, b.w.mem = a.w.mem → K (.waitStream p) b) :
    Follows cfg Good K a (addWaitDesc dq p) (fun _ b => b.cur = none) := by
  unfold addWaitDesc
  refine Follows.request (Follows.require (fun _ _ _ => trivial) (fun hst => ?_))
  obtain ⟨w, cur⟩ := a
  obtain rfl : cur = none := ha
  have hpush : Step cfg Good (.push dq) ⟨w, none⟩ ⟨w.pushDesc dq (.wait p), none⟩ := Step.push _
  have hwait : Step cfg Good (.waitStream p) ⟨w.pushDesc dq (.wait p), none⟩
      ⟨(w.pushDesc dq (.wait p)).setStatus p .pending, none⟩ :=
    Step.waitStream (w.mem p).stream he
      (show (w.mem p).status = .pendingNowait ∨ (w.mem p).status = .complete by simpa using hst)
  exact Follows.update (.tail (.single ⟨.push dq, hK _ _ trivial, hpush⟩) ⟨.waitStream p, hW _ rfl, hwait⟩) rfl
    (.pure rfl)

omit hE hG in
theorem follows_mpDescQueueAddWaitSend (he : cfg.useEventSync = false) (dq : Nat) (p : Ptr) (a : Mach)
    (ha : a.cur = none) (hW : (a.w.mem p).type.tx = true → (a.w.mem p).canBeWaited = true →
      ∀ b : Mach, b.w.mem = a.w.mem → K (.waitStream p) b) :
    Follows cfg Good K a (mpDescQueueAddWaitSend dq p) (fun _ b => b.cur = none) := by
  unfold mpDescQueueAddWaitSend
  refine Follows.request (Follows.require (fun _ _ _ => trivial) (fun htx => ?_))
  exact Follows.require (fun _ _ _ => trivial) (fun hcan => follows_addWaitDesc hK he dq p a ha (hW htx hcan))

omit hE hG in
theorem follows_mpDescQueueAddWaitRecv (he : cfg.useEventSync = false) (dq : Nat) (p : Ptr) (a : Mach)
    (ha : a.cur = none) (hW : (a.w.mem p).type.rx = true → ∀ b : Mach, b.w.mem = a.w.mem → K (.waitStream p) b) :
    Follows cfg Good K a (mpDescQueueAddWaitRecv dq p) (fun _ b => b.cur = none) := by
  unfold mpDescQueueAddWaitRecv
  refine Follows.request (Follows.require (fun _ _ _ => trivial) (fun hrx => ?_))
  exact follows_addWaitDesc hK he dq p a ha (hW hrx)

omit hK hE in
theorem follows_getWaitDescriptors (he : cfg.useEventSync = false) (p : Ptr) (a : Mach) (ha : a.cur = none)
    (hW : K (.waitStream p) a) : Follows cfg Good K a (getWaitDescriptors cfg p) (fun _ b => b.cur = none) := by
  unfold getWaitDescriptors
  refine Follows.request (Follows.clientOf (fun c _ => ?_))
  refine Follows.require (fun _ _ _ => trivial) (fun hst => ?_)
  obtain ⟨w, cur⟩ := a
  obtain rfl : cur = none := ha
  refine Follows.update (b := ⟨w.setReq p fun r => { r with stream := none, status := .pending }, none⟩)
    (.single ⟨.waitStream p, hW, Step.waitStream none he (by simpa using hst)⟩) rfl ?_
  exact Follows.returnCode hG (fun ans _ => Follows.ite (fun _ => .pure rfl) (fun _ => .pure rfl))

end Waits

end LibMp
