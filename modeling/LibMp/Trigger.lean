import LibMp.TriggerWrites

/- The sends that are posted on a stream with event sync, call by call.

   Each call leaves `TriggerInv`: it tracks its requests and gives the stream
   their trigger writes, or it stops before either. A call that fails between
   the two leaves a request on the posted list that no stream will trigger; the
   condition `TriggersAlone` excludes it, together with two streams that have
   trigger writes of one client at the same time. -/
namespace LibMp
variable {cfg : Config}

/-! ## Calls without a loop -/

/-- The program is not found in a loop. -/
def NeverSpins {α : Type} (m : M α) : Prop := ∀ s s', m s ≠ (.error .spinning, s')

namespace NeverSpins
variable {α β : Type}

theorem pure (x : α) : NeverSpins (Pure.pure x : M α) := by
  intro s s' h
  cases h

theorem bind {m : M α} {f : α → M β} (hm : NeverSpins m) (hf : ∀ x, NeverSpins (f x)) : NeverSpins (m >>= f) := by
  intro s s' h
  rcases Prog.bind_eq_error h with h | ⟨x, s₁, -, h⟩
  · exact hm s s' h
  · exact hf x s₁ s' h

theorem ite {c : Prop} [Decidable c] {m₁ m₂ : M α} (h₁ : NeverSpins m₁) (h₂ : NeverSpins m₂) :
    NeverSpins (if c then m₁ else m₂) := by
  split
  · exact h₁
  · exact h₂

theorem require {b : Bool} {e : Stop} (he : e ≠ .spinning) : NeverSpins (Prog.require b e : M Unit) := by
  intro s s' h
  cases b with
  | true => cases h
  | false =>
    cases h
    exact he rfl

theorem update (g : World → World) : NeverSpins (LibMp.update g) := by
  intro s s' h
  cases h

theorem request (p : Ptr) : NeverSpins (LibMp.request p) := by
  intro s s' h
  cases h

theorem client (c : Nat) : NeverSpins (LibMp.client c) := by
  intro s s' h
  cases h

theorem world : NeverSpins LibMp.world := by
  intro s s' h
  cases h

theorem clientOf (peer : Nat) : NeverSpins (LibMp.clientOf cfg peer) := by
  intro s s' h
  rw [LibMp.clientOf] at h
  cases hc : cfg.clientIndex peer with
  | none =>
    rw [hc] at h
    cases h
  | some c =>
    rw [hc] at h
    cases h

theorem returnCode : NeverSpins LibMp.returnCode := by
  rintro ⟨w, tape⟩ s' h
  cases tape <;> cases h

theorem newStreamRequest (fn : Fn) (c rank : Nat) (type : ReqType) (st : State) :
    NeverSpins (LibMp.newStreamRequest fn c rank type st) := by
  intro s s' h
  rcases newStreamRequest_run fn c rank type st s with ⟨-, hrun⟩ | ⟨-, s'', hrun⟩ <;> rw [hrun] at h <;> cases h

theorem postDescriptors (s : Stream) (descs : List StreamOp) : NeverSpins (gdsStreamPostDescriptors s descs) := by
  unfold gdsStreamPostDescriptors
  exact .bind .returnCode fun _ => .ite (.bind (.update _) fun _ => .pure _) (.pure _)

theorem track (c : Nat) (p : Ptr) (f : Flow) (s : Stream) : NeverSpins (clientTrackPostedStreamReq c p f s) :=
  .bind .world fun _ => .bind (.require (by decide)) fun _ => .update _

theorem block (c : Nat) (f : Flow) (p : Ptr) (descs : List StreamOp) : NeverSpins (blockOnCompletion c f p descs) := by
  unfold blockOnCompletion
  exact .bind (.client c) fun _ => .bind (.request p) fun _ =>
    .ite (.bind (.update _) fun _ => .bind .returnCode fun _ => .pure _) (.pure _)

theorem sendPrepare (he : cfg.useEventSync = true) (buf : Nat) (size : Int) (peer : Nat) (reg : Reg) :
    NeverSpins (mpSendPrepare cfg buf size peer reg) := by
  unfold mpSendPrepare
  rw [he]
  exact .bind (.clientOf peer) fun _ => .bind (.newStreamRequest _ _ _ _ _) fun _ => .bind (.update _) fun _ => .pure _

theorem sendOnStream (he : cfg.useEventSync = true) (buf : Nat) (size : Int) (peer : Nat) (reg : Reg) (s : Stream) :
    NeverSpins (mpSendOnStream cfg buf size peer reg s) := by
  unfold mpSendOnStream
  rw [he]
  refine .bind (.clientOf peer) fun _ => .bind (.newStreamRequest _ _ _ _ _) fun _ => .bind (.update _) fun _ =>
    .bind (.update _) fun _ => ?_
  refine .bind (.request _) fun _ => .bind .returnCode fun _ => .ite (.pure _) (.bind (.track _ _ _ _) fun _ => ?_)
  exact .bind (.block _ _ _ _) fun _ => .ite (.pure _) (.bind (.postDescriptors _ _) fun _ => .ite (.pure _) (.pure _))

theorem isendOnStream (he : cfg.useEventSync = true) (buf : Nat) (size : Int) (peer : Nat) (reg : Reg) (s : Stream) :
    NeverSpins (mpIsendOnStream cfg buf size peer reg s) := by
  unfold mpIsendOnStream
  rw [he]
  refine .bind (.clientOf peer) fun _ => .bind (.newStreamRequest _ _ _ _ _) fun _ => .bind (.update _) fun _ =>
    .bind (.update _) fun _ => ?_
  refine .bind (.request _) fun _ => .bind .returnCode fun _ => .ite (.pure _)
    (.bind (.postDescriptors _ _) fun _ => ?_)
  exact .ite (.pure _) (.bind (.track _ _ _ _) fun _ => .pure _)

theorem sendPost (he : cfg.useEventSync = true) (p : Ptr) (s : Stream) : NeverSpins (mpSendPostOnStream cfg p s) := by
  unfold mpSendPostOnStream
  rw [he]
  refine .bind (.request p) fun _ => .bind (.require (by decide)) fun _ => .bind (.clientOf _) fun _ =>
    .bind (.update _) fun _ => ?_
  refine .bind (.require (by decide)) fun _ => .bind (.client _) fun _ => .ite (.pure _) (.bind (.update _) fun _ => ?_)
  refine .bind .returnCode fun _ => .ite (.pure _) (.bind (.track _ _ _ _) fun _ => .bind (.block _ _ _ _) fun _ => ?_)
  exact .ite (.pure _) (.postDescriptors _ _)

theorem isendPost (he : cfg.useEventSync = true) (p : Ptr) (s : Stream) : NeverSpins (mpIsendPostOnStream cfg p s) := by
  unfold mpIsendPostOnStream
  rw [he]
  refine .bind (.request p) fun _ => .bind (.require (by decide)) fun _ => .bind (.update _) fun _ =>
    .bind (.clientOf _) fun _ => ?_
  refine .bind (.require (by decide)) fun _ => .bind (.client _) fun _ => .ite (.pure _) (.bind (.update _) fun _ => ?_)
  refine .bind .returnCode fun _ => .bind (.postDescriptors _ _) fun _ => .ite (.pure _) ?_
  exact .bind (.track _ _ _ _) fun _ => .pure _

theorem postAll (blocking : Bool) (s : Stream) (ps : List Ptr) (descs : List StreamOp) :
    NeverSpins (postAllEvent cfg blocking s ps descs) := by
  induction ps generalizing descs with
  | nil => exact .pure _
  | cons p rest ih =>
    unfold postAllEvent
    refine .bind (.request p) fun _ => .bind (.clientOf _) fun _ => .bind (.require (by decide)) fun _ =>
      .bind (.client _) fun _ => ?_
    refine .ite (.pure _) (.bind (.update _) fun _ => .bind .returnCode fun _ => .ite (.pure _)
      (.bind (.track _ _ _ _) fun _ => ?_))
    exact .ite (.bind (.block _ _ _ _) fun _ => .ite (.pure _) (ih _)) (ih _)

theorem postMany (he : cfg.useEventSync = true) (blocking : Bool) (s : Stream) (ps : List Ptr) :
    NeverSpins (LibMp.postMany cfg blocking s ps) := by
  rw [postMany_eq he]
  exact .bind (.postAll blocking s ps []) fun _ => .ite (.pure _) (.postDescriptors _ _)

end NeverSpins

/-! ## The calls -/

/-- What the calls read of a request stays when another one is posted. -/
theorem posted_request (w : World) (blocking : Bool) (c : Nat) (p q : Ptr) (s : Stream) :
    (((w.postEvent c p s).blockIf blocking c p).1.mem q).peer = (w.mem q).peer ∧
    (((w.postEvent c p s).blockIf blocking c p).1.mem q).type = (w.mem q).type ∧
    (((w.postEvent c p s).blockIf blocking c p).1.mem q).id = (w.mem q).id := by
  obtain ⟨n, v, hq⟩ := World.append_links (w := w.stamp c (w.mem p).type.flow p) (c := c) (f := .tx) (p := p) q
  have hpost : (w.postEvent c p s).mem q = { (w.stamp c (w.mem p).type.flow p).mem q with next := n, prev := v } := by
    rw [World.postEvent, World.addLog_mem, hq]
  cases blocking with
  | true =>
    obtain ⟨b, hb⟩ := (w.postEvent c p s).blockOn_mem c .tx p q
    show (((w.postEvent c p s).blockOn c .tx p).1.mem q).peer = _ ∧
      (((w.postEvent c p s).blockOn c .tx p).1.mem q).type = _ ∧
      (((w.postEvent c p s).blockOn c .tx p).1.mem q).id = _
    rw [hb, hpost]
    exact ⟨rfl, rfl, rfl⟩
  | false =>
    show ((w.postEvent c p s).mem q).peer = _ ∧ ((w.postEvent c p s).mem q).type = _ ∧
      ((w.postEvent c p s).mem q).id = _
    rw [hpost]
    exact ⟨rfl, rfl, rfl⟩

/-- The loop of a batched post that returns 0. -/
theorem postAllEvent_tracks {blocking : Bool} {s : Stream} (ps : List Ptr) {w : World} {descs descs' : List StreamOp}
    {tape : List Ans} {y : Sys} (hflow : ∀ p ∈ ps, (w.mem p).type.flow = .tx)
    (h : postAllEvent cfg blocking s ps descs ⟨w, tape⟩ = (.ok (0, descs'), y)) :
    ∃ ops, descs' = descs ++ ops ∧ Tracks s w y.w ops ∧
      ∀ c, triggers c ops ≠ [] → ∃ p ∈ ps, cfg.clientIndex (w.mem p).peer = some c := by
  induction ps generalizing w descs tape with
  | nil =>
    cases h
    refine ⟨[], (List.append_nil _).symm, .skip rfl (fun _ => rfl) (fun _ => rfl) rfl (fun _ => rfl), fun c hc => ?_⟩
    exact absurd rfl hc
  | cons p rest ih =>
    obtain ⟨c, t, hok, hrest⟩ := postAllEvent_cons h
    have hp := hflow p List.mem_cons_self
    have hlater := hok.later
    rw [hp] at hlater
    have hflow' : ∀ q ∈ rest, (((w.postEvent c p s).blockIf blocking c p).1.mem q).type.flow = .tx := by
      intro q hq
      rw [(posted_request w blocking c p q s).2.1]
      exact hflow q (List.mem_cons_of_mem p hq)
    obtain ⟨ops, rfl, htracks, hclients⟩ := ih hflow' hrest
    have hpost : Tracks s w (w.postEvent c p s) [w.triggerOp c p] := .post (Nat.lt_of_not_le hlater) hp
    have hone := hpost.trans (.blockIf (w.postEvent c p s) blocking c p)
    refine ⟨_, by rw [List.append_assoc]; rfl, hone.trans htracks, fun d hd => ?_⟩
    by_cases hcd : c = d
    · exact ⟨p, List.mem_cons_self, hcd ▸ hok.client⟩
    · -- the writes for other clients are those of the other requests
      have hops : triggers d ops ≠ [] := by
        rwa [triggers_append, triggers_append, Tracks.triggers_triggerOp hp, if_neg hcd, Tracks.triggers_blockIf] at hd
      obtain ⟨q, hq, hpeer⟩ := hclients d hops
      rw [(posted_request w blocking c p q s).1] at hpeer
      exact ⟨q, List.mem_cons_of_mem p hq, hpeer⟩

/-- The ids of a batch go up: above what was posted for the peer before, and
from one request to the next one of the same peer. -/
def InOrder (cfg : Config) (w : World) (ps : List Ptr) : Prop :=
  (∀ p ∈ ps, ∀ c, cfg.clientIndex (w.mem p).peer = some c → (w.clients c).lastPostedTriggerId .tx < (w.mem p).id) ∧
  ps.Pairwise fun p q => (w.mem p).peer = (w.mem q).peer → (w.mem p).id < (w.mem q).id

/-- A batch in order goes through. -/
theorem postAllEvent_inOrder {blocking : Bool} {s : Stream} (ps : List Ptr) {w : World} {descs descs' : List StreamOp}
    {tape : List Ans} {ret : Int} {y : Sys} (ht : Succeeds tape) (hflow : ∀ p ∈ ps, (w.mem p).type.flow = .tx)
    (hord : InOrder cfg w ps) (h : postAllEvent cfg blocking s ps descs ⟨w, tape⟩ = (.ok (ret, descs'), y)) :
    ret = 0 ∧ Succeeds y.tape := by
  induction ps generalizing w descs tape with
  | nil =>
    cases h
    exact ⟨rfl, ht⟩
  | cons p rest ih =>
    obtain ⟨hlater, hpairs⟩ := hord
    have hp := hflow p List.mem_cons_self
    rcases postAllEvent_turn h with ⟨-, hfail⟩ | ⟨c, t, hok, ht', hrest⟩
    · obtain ⟨-, c, hc, hid⟩ := hfail ht
      have hlt := hlater p List.mem_cons_self c hc
      rw [hp] at hid
      omega
    · refine ih (ht' ht) (fun q hq => ?_) ⟨fun q hq d hd => ?_, ?_⟩ hrest
      · rw [(posted_request w blocking c p q s).2.1]
        exact hflow q (List.mem_cons_of_mem p hq)
      · obtain ⟨hpeer, -, hid⟩ := posted_request w blocking c p q s
        rw [hpeer] at hd
        rw [hid, (Tracks.blockIf_words _ blocking c p d).2, (Tracks.postEvent_words hp s d).2]
        split
        · -- a request of the same client, that is, of the same peer
          rename_i hcd
          refine List.rel_of_pairwise_cons hpairs hq ?_
          rw [← Config.mpiRank_eq hok.client, ← Config.mpiRank_eq hd, hcd]
        · exact hlater q (List.mem_cons_of_mem p hq) d hd
      · refine (List.pairwise_cons.mp hpairs).2.imp fun {q r} hqr => ?_
        obtain ⟨hq1, -, hq3⟩ := posted_request w blocking c p q s
        obtain ⟨hr1, -, hr3⟩ := posted_request w blocking c p r s
        rw [hq1, hq3, hr1, hr3]
        exact hqr

/-- The first request of the batch is refused: its id, or a later one, was posted before. -/
def Refused (cfg : Config) (w : World) (ps : List Ptr) : Prop := ∃ p rest c, ps = p :: rest ∧
  cfg.clientIndex (w.mem p).peer = some c ∧ (w.mem p).id ≤ (w.clients c).lastPostedTriggerId .tx

/-- No stream but `s` has a trigger write for client `c` left. -/
def AloneOn (w : World) (s : Stream) (c : Nat) : Prop := ∀ t, t ≠ s → w.pendingTriggers t c = []

/-- What makes a post on `s` safe: it posts nothing, or all of the batch, and
no other stream has trigger writes of the clients left. -/
def PostsAlone (cfg : Config) (w : World) (s : Stream) (ps : List Ptr) : Prop :=
  Refused cfg w ps ∨ InOrder cfg w ps ∧ ∀ p ∈ ps, ∀ c, cfg.clientIndex (w.mem p).peer = some c → AloneOn w s c

namespace TriggerInv
variable {s : Stream} {w : World} {tape : List Ans} {y : Sys}

theorem postMany (he : cfg.useEventSync = true) (h : TriggerInv w) (blocking : Bool) {ps : List Ptr}
    (ht : Succeeds tape) (hflow : ∀ p ∈ ps, (w.mem p).type.flow = .tx) (hsafe : PostsAlone cfg w s ps) {ret : Int}
    (hrun : LibMp.postMany cfg blocking s ps ⟨w, tape⟩ = (.ok ret, y)) : TriggerInv y.w := by
  rw [postMany_eq he] at hrun
  obtain ⟨⟨rc, descs⟩, y₁, hall, hpost⟩ := Prog.bind_eq_ok hrun
  rcases hsafe with ⟨p, rest, c, rfl, hc, hid⟩ | ⟨hord, halone⟩
  · have hp := hflow p List.mem_cons_self
    rcases postAllEvent_turn hall with ⟨hne, hfail⟩ | ⟨d, t, hok, -, -⟩
    · dsimp only at hpost
      rw [if_pos hne] at hpost
      cases hpost
      rw [(hfail ht).1]
      exact h
    · have hdc : c = d := Option.some.inj (hc.symm.trans hok.client)
      have hlater := hok.later
      rw [hp, ← hdc] at hlater
      exact absurd hid hlater
  · obtain ⟨rfl, ht₁⟩ := postAllEvent_inOrder ps ht hflow hord hall
    obtain ⟨ops, hdescs, htracks, hclients⟩ := postAllEvent_tracks ps hflow hall
    rw [List.nil_append] at hdescs
    dsimp only at hpost
    rw [if_neg (by decide), hdescs, gdsStreamPostDescriptors_run ht₁] at hpost
    cases hpost
    refine h.enqueue htracks fun c hc => ?_
    obtain ⟨p, hp, hpeer⟩ := hclients c hc
    exact halone p hp c hpeer

/-- What touches neither words, streams nor log. -/
theorem frame {w' : World} (h : TriggerInv w) (hs : w'.streams = w.streams)
    (hc : ∀ c, (w'.clients c).lastTriggerId .tx =
    (w.clients c).lastTriggerId .tx ∧ (w'.clients c).lastPostedTriggerId .tx = (w.clients c).lastPostedTriggerId .tx)
    (hl : w'.log = w.log) : TriggerInv w' := by
  have hlog : w'.log = w.log ++ [] := by rw [hl, List.append_nil]
  refine h.same hs (fun c => (hc c).1) (fun c => (hc c).2) hlog (fun _ _ _ _ hm => by cases hm) ?_
  rw [hl]
  exact h.first

/-- One request is posted and its trigger write enqueued. -/
theorem posted (h : TriggerInv w) {c : Nat} {p : Ptr} (hlater : (w.clients c).lastPostedTriggerId .tx < (w.mem p).id)
    (hflow : (w.mem p).type.flow = .tx) (halone : AloneOn w s c) (blocking : Bool) :
    TriggerInv (((w.postEvent c p s).blockIf blocking c p).1.enqueue s
      (w.triggerOp c p :: ((w.postEvent c p s).blockIf blocking c p).2)) := by
  have hpost : Tracks s w (w.postEvent c p s) [w.triggerOp c p] := .post hlater hflow
  refine h.enqueue (hpost.trans (.blockIf (w.postEvent c p s) blocking c p)) fun d hd => ?_
  have hcd : c = d := by
    by_contra hne
    have hnil : triggers d ([w.triggerOp c p] ++ ((w.postEvent c p s).blockIf blocking c p).2) = [] := by
      rw [triggers_append, Tracks.triggers_triggerOp hflow, if_neg hne, Tracks.triggers_blockIf]
      rfl
    exact hd hnil
  rw [← hcd]
  exact halone

/-- The assertions of `client_track_posted_stream_req` hold where it comes back. -/
theorem track_ok {v : World} {c : Nat} {p : Ptr} {u : Unit} {t : List Ans}
    (h : clientTrackPostedStreamReq c p .tx s ⟨v, t⟩ = (.ok u, y)) : v.appendOk c .tx p = true := by
  obtain ⟨w', s', hw', h'⟩ := Prog.bind_eq_ok h
  cases hw'
  obtain ⟨_, s'', hreq, -⟩ := Prog.bind_eq_ok h'
  exact (require_ok hreq).1

/-- The stream is noted in the request. -/
theorem touch (h : TriggerInv w) (p : Ptr) (o : Option Stream) :
    TriggerInv (w.setReq p fun r => { r with stream := o }) :=
  h.frame rfl (fun _ => ⟨rfl, rfl⟩) rfl

/-- A request that is not refused is posted alone. -/
theorem postsAlone_single {p : Ptr} {c : Nat} (hsafe : PostsAlone cfg w s [p])
    (hc : cfg.clientIndex (w.mem p).peer = some c)
    (hid : ¬ (w.mem p).id ≤ (w.clients c).lastPostedTriggerId .tx) : AloneOn w s c := by
  rcases hsafe with ⟨q, rest, d, hq, hd, hle⟩ | ⟨-, halone⟩
  · cases hq
    have hcd : c = d := Option.some.inj (hc.symm.trans hd)
    rw [← hcd] at hle
    exact absurd hle hid
  · exact halone p List.mem_cons_self c hc

section Ends
variable {v : World} {c : Nat} {p : Ptr} (h : TriggerInv v)
  (hlater : (v.clients c).lastPostedTriggerId .tx < (v.mem p).id)
  (hflow : (v.mem p).type.flow = .tx) (halone : AloneOn v s c)
include h hlater hflow halone

/-- The end of a blocking post, once the request is tracked. -/
theorem blocking_end {t : List Ans} (ht : Succeeds t) {u : Unit} {s₁ : Sys}
    (htrack : clientTrackPostedStreamReq c p .tx s ⟨v.stamp c .tx p, t⟩ = (.ok u, s₁)) :
    ∃ descs s₂ s₃, blockOnCompletion c .tx p [.write (.lastTriggerId c .tx) (v.mem p).id] s₁ = (.ok (0, descs), s₂) ∧
      gdsStreamPostDescriptors s descs s₂ = (.ok 0, s₃) ∧ TriggerInv s₃.w := by
  rw [clientTrackPostedStreamReq_run (track_ok htrack)] at htrack
  have hpost : ((v.stamp c .tx p).append c .tx p).addLog (.tracked c p ((v.stamp c .tx p).mem p).id s) =
      v.postEvent c p s := by
    rw [World.postEvent, hflow]
    rfl
  rw [hpost] at htrack
  cases htrack
  obtain ⟨t₂, ht₂, hb⟩ := blockOnCompletion_run (c := c) (f := .tx) (p := p) (w := v.postEvent c p s) ht
    [.write (.lastTriggerId c .tx) (v.mem p).id]
  refine ⟨_, _, _, hb, gdsStreamPostDescriptors_run ht₂ s _ _, ?_⟩
  have hinv := h.posted hlater hflow halone true
  rw [World.triggerOp, hflow] at hinv
  exact hinv

/-- The end of a post that does not block. -/
theorem nonblocking_end {t : List Ans} (ht : Succeeds t) :
    ∃ s₁, gdsStreamPostDescriptors s [.write (.lastTriggerId c .tx) (v.mem p).id] ⟨v.stamp c .tx p, t⟩ = (.ok 0, s₁) ∧
      ∀ u s₂, clientTrackPostedStreamReq c p .tx s s₁ = (.ok u, s₂) → TriggerInv s₂.w := by
  refine ⟨_, gdsStreamPostDescriptors_run ht s _ _, fun u s₂ htrack => ?_⟩
  rw [clientTrackPostedStreamReq_run (track_ok htrack), World.append_enqueue] at htrack
  cases htrack
  have hinv := h.posted hlater hflow halone false
  rw [World.triggerOp, World.postEvent, hflow] at hinv
  exact hinv

end Ends

/-- The request that a single post goes on with, the stream noted in it. -/
theorem noted (h : TriggerInv w) {p : Ptr} {c : Nat} (hflow : (w.mem p).type.flow = .tx)
    (hsafe : PostsAlone cfg w s [p])
    (hc : cfg.clientIndex (w.mem p).peer = some c) (hid : ¬ (w.mem p).id ≤ (w.clients c).lastPostedTriggerId .tx) :
    ∃ v, v = (w.setReq p fun r => { r with stream := some s }) ∧ TriggerInv v ∧ (v.mem p).id = (w.mem p).id ∧
      (v.clients c).lastPostedTriggerId .tx < (v.mem p).id ∧ (v.mem p).type.flow = .tx ∧ AloneOn v s c := by
  have hmem : (w.setReq p fun r => { r with stream := some s }).mem p = { w.mem p with stream := some s } := by simp
  refine ⟨_, rfl, h.touch p (some s), ?_, ?_, ?_, ?_⟩
  · rw [hmem]
  · rw [hmem]
    exact Nat.lt_of_not_le hid
  · rw [hmem]
    exact hflow
  · have halone := postsAlone_single hsafe hc hid
    exact halone

theorem sendPost (he : cfg.useEventSync = true) (h : TriggerInv w) {p : Ptr} (ht : Succeeds tape)
    (hflow : (w.mem p).type.flow = .tx) (hsafe : PostsAlone cfg w s [p]) {ret : Int}
    (hrun : mpSendPostOnStream cfg p s ⟨w, tape⟩ = (.ok ret, y)) : TriggerInv y.w := by
  rw [mpSendPostOnStream, Prog.bind_ok (request_run p w tape)] at hrun
  obtain ⟨-, h₂⟩ := require_bind_ok hrun
  obtain ⟨c, hc, h₄⟩ := clientOf_bind_ok h₂
  rw [Prog.bind_ok (update_run _ _ _), if_pos he] at h₄
  obtain ⟨-, h₆⟩ := require_bind_ok h₄
  obtain ⟨cl, s₄, h₇, h₈⟩ := Prog.bind_eq_ok h₆
  obtain ⟨rfl, rfl⟩ := client_ok h₇
  rw [hflow] at h₈
  split at h₈
  · cases h₈
    exact h.touch p (some s)
  · rename_i hid
    obtain ⟨v, hv, hinv, hvid, hlater, hflow', halone⟩ := h.noted hflow hsafe hc hid
    rw [← hv, Prog.bind_ok (update_run _ _ _), Prog.bind_ok (returnCode_run ht _), if_neg (by decide)] at h₈
    obtain ⟨_, s₅, h₉, h₁₀⟩ := Prog.bind_eq_ok h₈
    obtain ⟨descs, s₆, s₇, hb, hg, hend⟩ := hinv.blocking_end hlater hflow' halone ht.tail h₉
    rw [hvid] at hb
    rw [Prog.bind_ok hb] at h₁₀
    dsimp only at h₁₀
    rw [if_neg (by decide), hg] at h₁₀
    cases h₁₀
    exact hend

theorem isendPost (he : cfg.useEventSync = true) (h : TriggerInv w) {p : Ptr} (ht : Succeeds tape)
    (hflow : (w.mem p).type.flow = .tx) (hsafe : PostsAlone cfg w s [p]) {ret : Int}
    (hrun : mpIsendPostOnStream cfg p s ⟨w, tape⟩ = (.ok ret, y)) : TriggerInv y.w := by
  rw [mpIsendPostOnStream, Prog.bind_ok (request_run p w tape)] at hrun
  obtain ⟨-, h₂⟩ := require_bind_ok hrun
  rw [Prog.bind_ok (update_run _ _ _), if_pos he] at h₂
  obtain ⟨c, hc, h₄⟩ := clientOf_bind_ok h₂
  obtain ⟨-, h₆⟩ := require_bind_ok h₄
  obtain ⟨cl, s₄, h₇, h₈⟩ := Prog.bind_eq_ok h₆
  obtain ⟨rfl, rfl⟩ := client_ok h₇
  rw [hflow] at h₈
  split at h₈
  · cases h₈
    exact h.touch p (some s)
  · rename_i hid
    obtain ⟨v, hv, hinv, hvid, hlater, hflow', halone⟩ := h.noted hflow hsafe hc hid
    obtain ⟨s₅, hg, hend⟩ := hinv.nonblocking_end hlater hflow' halone ht.tail
    rw [hvid] at hg
    rw [← hv, Prog.bind_ok (update_run _ _ _), Prog.bind_ok (returnCode_run ht _),
      Prog.bind_ok hg, if_neg (by decide)] at h₈
    obtain ⟨_, s₆, h₉, h₁₀⟩ := Prog.bind_eq_ok h₈
    cases h₁₀
    exact hend _ _ h₉

/-- The request that a send on a stream takes. -/
theorem taken (h : TriggerInv w) (hcore : CoreInv cfg ⟨w, none⟩) (fn : Fn) (c : Nat) (buf : Nat) (size : Int)
    (reg : Reg) :
    ∃ v, v = (w.take fn c (cfg.mpiRank c) .send .prepared).buildSend cfg c w.nextFree buf size reg ∧ TriggerInv v ∧
      (v.clients c).lastPostedTriggerId .tx < (v.mem w.nextFree).id ∧ (v.mem w.nextFree).type.flow = .tx ∧
      ∀ s, AloneOn w s c → AloneOn v s c := by
  obtain ⟨h1, -, -, -, -, -, h7⟩ := w.take_mem fn c (cfg.mpiRank c) .send .prepared
  have hmem : ((w.take fn c (cfg.mpiRank c) .send .prepared).buildSend cfg c w.nextFree buf size reg).mem w.nextFree =
      { (w.take fn c (cfg.mpiRank c) .send .prepared).mem w.nextFree with
        inWr := sendWr cfg c w.nextFree 1 .sgEntry, sgEntry := ⟨buf, len32 size, reg.key⟩ } := by
    simp [World.buildSend]
  have hstreams : ((w.take fn c (cfg.mpiRank c) .send .prepared).buildSend cfg c w.nextFree buf size reg).streams =
      w.streams := w.take_streams fn c (cfg.mpiRank c) .send .prepared
  have hwords : ∀ d,
      (((w.take fn c (cfg.mpiRank c) .send .prepared).buildSend cfg c
        w.nextFree buf size reg).clients d).lastTriggerId .tx = (w.clients d).lastTriggerId .tx ∧
      (((w.take fn c (cfg.mpiRank c) .send .prepared).buildSend cfg c
        w.nextFree buf size reg).clients d).lastPostedTriggerId .tx = (w.clients d).lastPostedTriggerId .tx := by
    intro d
    simp only [World.buildSend, World.setReq_clients, World.take_clients]
    split
    · rename_i hd
      rw [hd]
      exact ⟨rfl, rfl⟩
    · exact ⟨rfl, rfl⟩
  refine ⟨_, rfl, h.frame hstreams hwords (w.take_log fn c (cfg.mpiRank c) .send .prepared), ?_, ?_, ?_⟩
  · -- the id is the next one of the client, and ids are posted after they are taken
    obtain ⟨fl, pl, hcore⟩ := hcore
    have hle := hcore.posted_le c
    rw [(hwords c).2, hmem]
    dsimp only at hle ⊢
    omega
  · rw [hmem]
    dsimp only
    rw [h1]
    rfl
  · intro s halone t hts
    rw [World.pendingTriggers, hstreams]
    exact halone t hts

theorem sendPrepare (he : cfg.useEventSync = true) (h : TriggerInv w) (hcore : CoreInv cfg ⟨w, none⟩) {buf peer : Nat}
    {size : Int} {reg : Reg} {x : Int × Option Ptr}
    (hrun : mpSendPrepare cfg buf size peer reg ⟨w, tape⟩ = (.ok x, y)) :
    TriggerInv y.w := by
  unfold mpSendPrepare at hrun
  obtain ⟨c, hc, h₂⟩ := clientOf_bind_ok hrun
  have h₃ := start_ok h₂
  rw [if_pos he] at h₃
  cases h₃
  obtain ⟨v, rfl, hinv, -⟩ := h.taken hcore .mpSendPrepare c buf size reg
  exact hinv

theorem sendOnStream (he : cfg.useEventSync = true) (h : TriggerInv w) (hcore : CoreInv cfg ⟨w, none⟩)
    (ht : Succeeds tape)
    {buf peer : Nat} {size : Int} {reg : Reg} (hsafe : ∀ c, cfg.clientIndex peer = some c → AloneOn w s c)
    {x : Int × Option Ptr} (hrun : mpSendOnStream cfg buf size peer reg s ⟨w, tape⟩ = (.ok x, y)) : TriggerInv y.w := by
  unfold mpSendOnStream at hrun
  obtain ⟨c, hc, h₂⟩ := clientOf_bind_ok hrun
  rw [if_pos he] at h₂
  have h₃ := start_ok h₂
  obtain ⟨v, hv, hinv, hlater, hflow, hkeeps⟩ := h.taken hcore .mpSendOnStream c buf size reg
  have halone := hkeeps s (hsafe c hc)
  rw [← hv, Prog.bind_ok (update_run _ _ _), Prog.bind_ok (request_run _ _ _), Prog.bind_ok (returnCode_run ht _),
    if_neg (by decide)] at h₃
  obtain ⟨_, s₂, h₄, h₅⟩ := Prog.bind_eq_ok h₃
  obtain ⟨descs, s₃, s₄, hb, hg, hend⟩ := hinv.blocking_end hlater hflow halone ht.tail h₄
  have hb' : blockOnCompletion c .tx w.nextFree
      [.write (.lastTriggerId c .tx) ((v.stamp c .tx w.nextFree).mem w.nextFree).id] s₂ = (.ok (0, descs), s₃) := hb
  rw [Prog.bind_ok hb'] at h₅
  dsimp only at h₅
  rw [if_neg (by decide), Prog.bind_ok hg, if_neg (by decide)] at h₅
  cases h₅
  exact hend

theorem isendOnStream (he : cfg.useEventSync = true) (h : TriggerInv w) (hcore : CoreInv cfg ⟨w, none⟩)
    (ht : Succeeds tape)
    {buf peer : Nat} {size : Int} {reg : Reg} (hsafe : ∀ c, cfg.clientIndex peer = some c → AloneOn w s c)
    {x : Int × Option Ptr} (hrun : mpIsendOnStream cfg buf size peer reg s ⟨w, tape⟩ = (.ok x, y)) :
    TriggerInv y.w := by
  unfold mpIsendOnStream at hrun
  obtain ⟨c, hc, h₂⟩ := clientOf_bind_ok hrun
  rw [if_pos he] at h₂
  have h₃ := start_ok h₂
  obtain ⟨v, hv, hinv, hlater, hflow, hkeeps⟩ := h.taken hcore .mpIsendOnStream c buf size reg
  have halone := hkeeps s (hsafe c hc)
  obtain ⟨s₂, hg, hend⟩ := hinv.nonblocking_end hlater hflow halone ht.tail
  have hg' : gdsStreamPostDescriptors s [.write (.lastTriggerId c .tx) ((v.stamp c .tx w.nextFree).mem w.nextFree).id]
      ⟨v.stamp c .tx w.nextFree, tape.tail⟩ = (.ok 0, s₂) := hg
  rw [← hv, Prog.bind_ok (update_run _ _ _), Prog.bind_ok (request_run _ _ _), Prog.bind_ok (returnCode_run ht _),
    if_neg (by decide), Prog.bind_ok hg', if_neg (by decide)] at h₃
  obtain ⟨_, s₃, h₄, h₅⟩ := Prog.bind_eq_ok h₃
  cases h₅
  exact hend _ _ h₄

end TriggerInv

/-! ## Runs -/

/-- Sends on streams, prepared sends and their posts, and progress, with every
stream running its work in order. -/
def TriggerCalls : Event → World → Prop
  | .call op tape, w => (∀ ans ∈ tape, NoStores ans) ∧
    match op with
    | .sendPrepare .. | .sendOnStream .. | .isendOnStream .. | .progress _ | .progressAll _ => True
    | .sendPost p _ | .isendPost p _ => PreparedHandle w p
    | .sendPostAll ps _ | .isendPostAll ps _ => ∀ p ∈ ps, PreparedHandle w p
    | _ => False
  | .gpu (.run _), _ | .work _ _, _ => True
  | .gpu (.store _ _), _ => False

/-- A send is posted on a stream only where no other stream has a trigger write
for the client left; the calls to the outside that enqueue its trigger write
succeed; and a batch goes up in its ids. -/
def TriggersAlone (cfg : Config) : Event → World → Prop
  | .call op tape, w =>
    match op with
    | .sendOnStream _ _ peer _ s | .isendOnStream _ _ peer _ s =>
      Succeeds tape ∧ ∀ c, cfg.clientIndex peer = some c → AloneOn w s c
    | .sendPost p s | .isendPost p s => Succeeds tape ∧ PostsAlone cfg w s [p]
    | .sendPostAll ps s | .isendPostAll ps s => Succeeds tape ∧ PostsAlone cfg w s ps
    | _ => True
  | _, _ => True

theorem TriggerCalls.scope {ev : Event} {w : World} (h : TriggerCalls ev w) : EventScope ev w := by
  cases ev with
  | call op tape =>
    obtain ⟨-, h⟩ := h
    cases op with
    | sendPrepare | progress | progressAll | sendOnStream | isendOnStream => trivial
    | sendPost | isendPost | sendPostAll | isendPostAll => exact h
    | _ => exact h.elim
  | gpu | work => trivial

/-- A call that is no wait on a stream leaves what its run leaves. -/
theorem exec_run (op : Op) {tape : List Ans} {w : World} (hw : op.streamWait = none)
    (ha : alive (op.exec cfg tape w).1) :
    (∃ x y, op.run cfg ⟨w, tape⟩ = (.ok x, y) ∧ (op.exec cfg tape w).2 = y.w) ∨
      ∃ y, op.run cfg ⟨w, tape⟩ = (.error .spinning, y) ∧ (op.exec cfg tape w).2 = y.w := by
  unfold Op.exec at ha ⊢
  cases hr : op.run cfg ⟨w, tape⟩ with
  | mk r y =>
    rw [hr, hw] at ha
    rw [hw]
    cases r with
    | ok x => exact .inl ⟨x, y, rfl, rfl⟩
    | error e =>
      obtain rfl : e = .spinning := ha
      exact .inr ⟨y, rfl, rfl⟩

/-- A call that is not found in a loop keeps what its returns keep. -/
theorem exec_of_call (op : Op) {I : World → Prop} {tape : List Ans} {w : World} (hs : NeverSpins (op.run cfg))
    (hw : op.streamWait = none) (ha : alive (op.exec cfg tape w).1)
    (hk : ∀ x y, op.run cfg ⟨w, tape⟩ = (.ok x, y) → I y.w) : I (op.exec cfg tape w).2 := by
  rcases exec_run op hw ha with ⟨x, y, hr, hy⟩ | ⟨y, hr, -⟩
  · rw [hy]
    exact hk x y hr
  · exact absurd hr (hs _ _)

/-- The calls that return no request. -/
theorem only_ok {m : M Int} {x : Int × Option Ptr} {s s' : Sys} (h : only m s = (.ok x, s')) :
    ∃ ret, m s = (.ok ret, s') := by
  obtain ⟨ret, s₁, h₁, h₂⟩ := Prog.bind_eq_ok h
  cases h₂
  exact ⟨ret, h₁⟩

theorem NeverSpins.only {m : M Int} (h : NeverSpins m) : NeverSpins (LibMp.only m) := h.bind fun _ => .pure _

/-- Progress keeps the invariant, whether it comes back or not. -/
theorem TriggerInv.progressed {w : World} {fl : List Ptr} {pl : Nat → List Ptr} (h : TriggerInv w)
    (hcore : Core cfg ⟨w, none⟩ fl pl) (hist : PostedHistory cfg ⟨w, none⟩ pl) {op : Op} {tape : List Ans}
    (htape : ∀ ans ∈ tape, NoStores ans) (hw : op.streamWait = none)
    (hf : Follows cfg NoStores (fun l _ => l.Progress) ⟨w, none⟩ (op.run cfg) fun _ _ => True)
    (ha : alive (op.exec cfg tape w).1) : TriggerInv (op.exec cfg tape w).2 := by
  have hmoves : ∃ b, Moves (Move cfg NoStores fun l _ => l.Progress) ⟨w, none⟩ b ∧ b.w = (op.exec cfg tape w).2 := by
    rcases exec_run op hw ha with ⟨x, y, hr, hy⟩ | ⟨y, hr, hy⟩
    · obtain ⟨b, hm, hR, -⟩ := hf.ok ⟨rfl, htape⟩ hr
      exact ⟨b, hm, hR.1.trans hy.symm⟩
    · obtain ⟨b, hm, hb⟩ := hf.spinning ⟨rfl, htape⟩ hr
      exact ⟨b, hm, hb.trans hy.symm⟩
  obtain ⟨b, hm, hb⟩ := hmoves
  rw [← hb]
  have hall := Moves.inv (I := fun a : Mach => TriggerInv a.w ∧ ∃ fl pl, Core cfg a fl pl ∧ PostedHistory cfg a pl)
    (fun a b ⟨ha, fl, pl, hc, hp⟩ ⟨l, hl, hs⟩ => by
      obtain ⟨fl', hc'⟩ := hc.step_posted hs
      exact ⟨ha.progress hc hp hl hs, fl', _, hc', hp.step hc hs⟩) hm ⟨h, fl, pl, hcore, hist⟩
  exact hall.1

theorem TriggerInv.event (he : cfg.useEventSync = true) {w : World} {fl : List Ptr} {pl : Nat → List Ptr}
    (h : TriggerInv w)
    (hcore : Core cfg ⟨w, none⟩ fl pl) (hist : PostedHistory cfg ⟨w, none⟩ pl) {ev : Event} (hev : TriggerCalls ev w)
    (hsafe : TriggersAlone cfg ev w) (ha : alive (ev.exec cfg w).1) : TriggerInv (ev.exec cfg w).2 := by
  have hc : CoreInv cfg ⟨w, none⟩ := ⟨fl, pl, hcore⟩
  have hflow : ∀ p, PreparedHandle w p → (w.mem p).type.flow = .tx := by
    intro p hp
    exact (hcore.type_ok p .mpSendPrepare hp.2).2
  cases ev with
  | work s tag =>
    have hnone : Tracks s w w [.work tag] := .skip rfl (fun _ => rfl) (fun _ => rfl) rfl (fun _ => rfl)
    exact h.enqueue hnone fun c hc => absurd rfl hc
  | gpu g =>
    cases g with
    | run s => exact h.gpu s
    | store c v => exact hev.elim
  | call op tape =>
    obtain ⟨htape, hev⟩ := hev
    cases op with
    | progress f =>
      refine h.progressed hcore hist htape rfl ?_ ha
      exact .bind (follows_mpProgressSingleFlow (fun _ _ hl => hl) (fun _ _ hm => by cases hm) f _ (built_of_none rfl))
        fun _ _ _ => .pure trivial
    | progressAll ps =>
      refine h.progressed hcore hist htape rfl ?_ ha
      exact .bind (follows_progressAllFrom (fun _ _ hl => hl) (fun _ _ hm => by cases hm) 0 ps _ (built_of_none rfl))
        fun _ _ _ => .pure trivial
    | sendPrepare buf size peer reg =>
      apply exec_of_call (.sendPrepare buf size peer reg) (NeverSpins.sendPrepare he buf size peer reg) rfl ha
      intro x y hrun
      exact h.sendPrepare he hc hrun
    | sendOnStream buf size peer reg s =>
      apply exec_of_call (.sendOnStream buf size peer reg s) (NeverSpins.sendOnStream he buf size peer reg s) rfl ha
      intro x y hrun
      exact h.sendOnStream he hc hsafe.1 hsafe.2 hrun
    | isendOnStream buf size peer reg s =>
      apply exec_of_call (.isendOnStream buf size peer reg s) (NeverSpins.isendOnStream he buf size peer reg s) rfl ha
      intro x y hrun
      exact h.isendOnStream he hc hsafe.1 hsafe.2 hrun
    | sendPost p s =>
      apply exec_of_call (.sendPost p s) (NeverSpins.sendPost he p s).only rfl ha
      intro x y hrun
      obtain ⟨ret, hret⟩ := only_ok hrun
      exact h.sendPost he hsafe.1 (hflow p hev) hsafe.2 hret
    | isendPost p s =>
      apply exec_of_call (.isendPost p s) (NeverSpins.isendPost he p s).only rfl ha
      intro x y hrun
      obtain ⟨ret, hret⟩ := only_ok hrun
      exact h.isendPost he hsafe.1 (hflow p hev) hsafe.2 hret
    | sendPostAll ps s =>
      apply exec_of_call (.sendPostAll ps s) (NeverSpins.postMany he true s ps).only rfl ha
      intro x y hrun
      obtain ⟨ret, hret⟩ := only_ok hrun
      exact h.postMany he true hsafe.1 (fun p hp => hflow p (hev p hp)) hsafe.2 hret
    | isendPostAll ps s =>
      apply exec_of_call (.isendPostAll ps s) (NeverSpins.postMany he false s ps).only rfl ha
      intro x y hrun
      obtain ⟨ret, hret⟩ := only_ok hrun
      exact h.postMany he false hsafe.1 (fun p hp => hflow p (hev p hp)) hsafe.2 hret
    | _ => exact hev.elim

/-- A request is handed to the HCA after the stream on which it was posted has
executed its trigger write. -/
theorem sends_wait_for_their_stream (he : cfg.useEventSync = true) {w : World}
    (h : Reach cfg (fun ev w => TriggerCalls ev w ∧ TriggersAlone cfg ev w) w) : TriggeredFirst w.log := by
  have hinv : TriggerInv w := by
    induction h with
    | init => exact .init
    | step ev hw hok ha ih =>
      obtain ⟨fl, pl, hcore, hist⟩ := postedHistory_of_reach he (fun _ _ hev => hev.1.scope) hw
      exact ih.event he hcore hist hok.1 hok.2 ha
  exact hinv.first

/-- A send on stream 0 goes out once the stream has run. -/
theorem sends_wait_for_their_stream_of_send :
    ∃ w, Reach eventPeer (fun ev w => TriggerCalls ev w ∧ TriggersAlone eventPeer ev w) w ∧
      handedLog 0 w.log = [(0, 1)] ∧ TriggeredFirst w.log := by
  have halone : ∀ c, eventPeer.clientIndex 1 = some c → AloneOn World.init 0 c := by
    intro c _ t _
    rfl
  have hr : Reach eventPeer (fun ev w => TriggerCalls ev w ∧ TriggersAlone eventPeer ev w)
      (World.init.after eventPeer [sendOnZero, .gpu (.run 0), .call (.progress .tx) []]) :=
    Reach.init.after eventPeer ⟨⟨⟨by simp, trivial⟩, by simp [Succeeds], halone⟩, by decide,
      ⟨trivial, trivial⟩, by decide, ⟨⟨by simp, trivial⟩, trivial⟩, by decide, trivial⟩
  exact ⟨_, hr, by decide, sends_wait_for_their_stream rfl hr⟩

/-- A send to the peer on stream 1. -/
def sendOnOne : Event := .call (.isendOnStream 0 8 1 ⟨0⟩ 1) []

/-- The write of stream 1 lets the send of stream 0 go: its own write is still
to come. -/
theorem later_stream_triggers_send :
    ∃ w, Reach eventPeer TriggerCalls w ∧ .write (.lastTriggerId 0 .tx) 1 ∈ (w.streams 0).todo ∧
      .tracked 0 0 1 0 ∈ w.log ∧ handedLog 0 w.log = [(0, 1), (1, 2)] ∧ ¬ TriggeredFirst w.log := by
  have hr : Reach eventPeer TriggerCalls
      (World.init.after eventPeer [sendOnZero, sendOnOne, .gpu (.run 1), .call (.progress .tx) []]) :=
    Reach.init.after eventPeer ⟨⟨by simp, trivial⟩, by decide, ⟨by simp, trivial⟩, by decide, trivial, by decide,
      ⟨by simp, trivial⟩, by decide, trivial⟩
  refine ⟨_, hr, by decide, by decide, by decide, fun h => ?_⟩
  have hprefix : [.tracked 0 0 1 0, .tracked 0 1 2 1, .ran 1 0 (.write (.lastTriggerId 0 .tx) 2),
    .accepted 0 .tx 0 1] ++
      [.handed 0 0 1 2] <+:
        (World.init.after eventPeer [sendOnZero, sendOnOne, .gpu (.run 1), .call (.progress .tx) []]).log := by
    decide
  obtain ⟨k, hk, -⟩ := (h _ 0 0 1 2 hprefix).2 0 (by simp)
  simp at hk

end LibMp
