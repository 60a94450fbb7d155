import LibMp.Batch
import LibMp.Comm
import LibMp.PostedList
import LibMp.Returns

/- The batched stream calls with event sync, against single calls.

   A batched call collects the descriptors of all its requests and posts them
   at the end; single calls post theirs one by one. Both loops are followed
   together: when the batched call is at a request with the descriptors `descs`
   collected and the world `w`, the single calls are at the same request in the
   world `w.enqueue s descs`. -/
namespace LibMp
variable {cfg : Config}

/-! ## Waits -/

/-- The request at `p` has a client and a type. -/
def Addressed (cfg : Config) (w : World) (p : Ptr) : Prop := ∃ c f, w.At cfg p c f

/-- Waiting for `ps` at once and waiting for each of them in turn return the
same and leave the same world. -/
def WaitsAgree (cfg : Config) (w : World) (tape₁ tape₂ : List Ans) (ps : List Ptr) (s : Stream) : Prop :=
  (mpWaitAllOnStream cfg ps s ⟨w, tape₁⟩).1 = (postEach (fun p => mpWaitOnStream cfg p s) ps ⟨w, tape₂⟩).1 ∧
    (mpWaitAllOnStream cfg ps s ⟨w, tape₁⟩).2.w = (postEach (fun p => mpWaitOnStream cfg p s) ps ⟨w, tape₂⟩).2.w

/-- What waiting for the request at `p` makes of the world and adds to the stream. -/
def World.blockOn (w : World) (c : Nat) (f : Flow) (p : Ptr) : World × List StreamOp :=
  if (w.clients c).lastPostedTrackedId f < (w.mem p).id then
    (w.arm c f p, [.wait (.lastTrackedId c (w.mem p).type.flow) (w.mem p).id .geq])
  else (w, [])

theorem World.blockOn_mem (w : World) (c : Nat) (f : Flow) (p q : Ptr) :
    ∃ t, (w.blockOn c f p).1.mem q = { w.mem q with trigger := t } := by
  unfold World.blockOn
  split
  · rw [World.arm, World.setClient_mem]
    refine w.setReq_rel (R := fun r r' => ∃ t, r' = { r with trigger := t }) (fun _ => ⟨_, rfl⟩) ?_ q
    exact ⟨_, rfl⟩
  · exact ⟨_, rfl⟩

/-- Waiting looks at requests and counters only, not at what a stream still has to do. -/
theorem World.blockOn_enqueue (w : World) (c : Nat) (f : Flow) (p : Ptr) (s : Stream) (ops : List StreamOp) :
    (w.enqueue s ops).blockOn c f p = ((w.blockOn c f p).1.enqueue s ops, (w.blockOn c f p).2) := by
  unfold World.blockOn
  have hsame : ((w.enqueue s ops).clients c).lastPostedTrackedId f < ((w.enqueue s ops).mem p).id ↔
      (w.clients c).lastPostedTrackedId f < (w.mem p).id := Iff.rfl
  by_cases h : (w.clients c).lastPostedTrackedId f < (w.mem p).id
  · rw [if_pos (hsame.mpr h), if_pos h]
    rfl
  · rw [if_neg (mt hsame.mp h), if_neg h]

/-- "block stream on completion of this req" changes the world in the same way
whether preparing the wait succeeds or not. -/
theorem blockOnCompletion_eq (c : Nat) (f : Flow) (p : Ptr) (w : World) (tape : List Ans) (descs : List StreamOp) :
    ∃ rc tape', (Succeeds tape → rc = 0 ∧ Succeeds tape') ∧ blockOnCompletion c f p descs ⟨w, tape⟩ =
      (.ok (rc, descs ++ (w.blockOn c f p).2), ⟨(w.blockOn c f p).1, tape'⟩) := by
  have hcl : client c ⟨w, tape⟩ = (.ok (w.clients c), ⟨w, tape⟩) := rfl
  rw [blockOnCompletion, Prog.bind_ok hcl, Prog.bind_ok (request_run p w tape)]
  unfold World.blockOn
  split
  · rw [Prog.bind_ok (update_run _ _ _)]
    cases tape with
    | nil => exact ⟨0, [], fun h => ⟨rfl, h⟩, rfl⟩
    | cons ans tape => exact ⟨ans.rc, tape, fun h => ⟨h ans List.mem_cons_self, h.tail⟩, rfl⟩
  · refine ⟨0, tape, fun h => ⟨rfl, h⟩, ?_⟩
    rw [List.append_nil]
    rfl

theorem blockOnCompletion_run {c : Nat} {f : Flow} {p : Ptr} {w : World} {tape : List Ans} (ht : Succeeds tape)
    (descs : List StreamOp) : ∃ tape', Succeeds tape' ∧ blockOnCompletion c f p descs ⟨w, tape⟩ =
      (.ok (0, descs ++ (w.blockOn c f p).2), ⟨(w.blockOn c f p).1, tape'⟩) := by
  obtain ⟨rc, t, hs, h⟩ := blockOnCompletion_eq c f p w tape descs
  obtain ⟨rfl, hs'⟩ := hs ht
  exact ⟨t, hs', h⟩

theorem gdsStreamPostDescriptors_run {tape : List Ans} (h : Succeeds tape) (s : Stream) (descs : List StreamOp)
    (w : World) : gdsStreamPostDescriptors s descs ⟨w, tape⟩ = (.ok 0, ⟨w.enqueue s descs, tape.tail⟩) := by
  rw [gdsStreamPostDescriptors, Prog.bind_ok (returnCode_run h w)]
  rfl

/-- `mp_wait_on_stream` on a request that is complete does nothing. -/
theorem mpWaitOnStream_complete (he : cfg.useEventSync = true) {c : Nat} {f : Flow} {p : Ptr} {w : World} {s : Stream}
    (hat : w.At cfg p c f) (hst : (w.mem p).status = .complete) (tape : List Ans) :
    mpWaitOnStream cfg p s ⟨w, tape⟩ = (.ok 0, ⟨w, tape⟩) := by
  have hty : decide ((w.mem p).type ≠ .null) = true := by simp [hat.2.1]
  rw [mpWaitOnStream, Prog.bind_ok (request_run p w tape), Prog.bind_ok (clientOf_run hat.1 _),
    Prog.bind_ok (require_run hty .assertType _), if_pos he, if_pos hst]
  rfl

/-- `mp_wait_on_stream` on another one. -/
theorem mpWaitOnStream_run (he : cfg.useEventSync = true) {c : Nat} {f : Flow} {p : Ptr} {w : World} {s : Stream}
    (hat : w.At cfg p c f) (hst : (w.mem p).status ≠ .complete) {tape : List Ans} (ht : Succeeds tape) :
    ∃ tape', Succeeds tape' ∧ mpWaitOnStream cfg p s ⟨w, tape⟩ =
      (.ok 0, ⟨(w.blockOn c f p).1.enqueue s (w.blockOn c f p).2, tape'⟩) := by
  obtain ⟨hc, hnull, hflow⟩ := hat
  have hty : decide ((w.mem p).type ≠ .null) = true := by simp [hnull]
  have hcl : client c ⟨w, tape⟩ = (.ok (w.clients c), ⟨w, tape⟩) := rfl
  rw [mpWaitOnStream, Prog.bind_ok (request_run p w tape), Prog.bind_ok (clientOf_run hc _),
    Prog.bind_ok (require_run hty .assertType _), if_pos he, if_neg hst, Prog.bind_ok hcl, hflow]
  unfold World.blockOn
  split
  · refine ⟨tape.tail.tail, ht.tail.tail, ?_⟩
    rw [Prog.bind_ok (update_run _ _ _), Prog.bind_ok (returnCode_run ht _), if_neg (by decide), hflow]
    exact gdsStreamPostDescriptors_run ht.tail s _ _
  · refine ⟨tape, ht, ?_⟩
    rw [World.enqueue_nil]
    rfl

theorem World.blockOn_at {w : World} {c d : Nat} {f g : Flow} {p q : Ptr} :
    (w.blockOn c f p).1.At cfg q d g ↔ w.At cfg q d g := by
  obtain ⟨t, ht⟩ := w.blockOn_mem c f p q
  simp only [World.At, ht]

/-- The two loops go together over requests none of which is complete. -/
theorem waits_together (he : cfg.useEventSync = true) (s : Stream) (ps : List Ptr) {w : World} (descs : List StreamOp)
    {tape₁ tape₂ : List Ans} (h₁ : Succeeds tape₁) (h₂ : Succeeds tape₂)
    (hps : ∀ p ∈ ps, Addressed cfg w p ∧ (w.mem p).status ≠ .complete) :
    ∃ w' descs' t₁ t₂, Succeeds t₁ ∧ waitAllEvent cfg ps descs ⟨w, tape₁⟩ = (.ok (0, descs'), ⟨w', t₁⟩) ∧
      postEach (fun p => mpWaitOnStream cfg p s) ps ⟨w.enqueue s descs, tape₂⟩ =
        (.ok 0, ⟨w'.enqueue s descs', t₂⟩) := by
  induction ps generalizing w descs tape₁ tape₂ with
  | nil => exact ⟨w, descs, tape₁, tape₂, h₁, rfl, rfl⟩
  | cons p rest ih =>
    obtain ⟨⟨c, f, hat⟩, hst⟩ := hps p List.mem_cons_self
    have hty : decide ((w.mem p).type ≠ .null) = true := by simp [hat.2.1]
    have hnc : decide ((w.mem p).status ≠ .complete) = true := by simp [hst]
    obtain ⟨t₁, ht₁, hb⟩ := blockOnCompletion_run (c := c) (f := f) (p := p) (w := w) h₁ descs
    obtain ⟨t₂, ht₂, hone⟩ := mpWaitOnStream_run he (w := w.enqueue s descs) (s := s) hat hst h₂
    have hrest : ∀ q ∈ rest, Addressed cfg (w.blockOn c f p).1 q ∧ ((w.blockOn c f p).1.mem q).status ≠ .complete := by
      intro q hq
      obtain ⟨⟨d, g, hd⟩, hq'⟩ := hps q (List.mem_cons_of_mem p hq)
      obtain ⟨t, ht⟩ := w.blockOn_mem c f p q
      exact ⟨⟨d, g, World.blockOn_at.mpr hd⟩, by rw [ht]; exact hq'⟩
    obtain ⟨w', descs', u₁, u₂, hu, hall, heach⟩ := ih _ ht₁ ht₂ hrest
    refine ⟨w', descs', u₁, u₂, hu, ?_, ?_⟩
    · rw [waitAllEvent, Prog.bind_ok (request_run p w tape₁), Prog.bind_ok (clientOf_run hat.1 _),
        Prog.bind_ok (require_run hty .assertType _), Prog.bind_ok (require_run hnc .assertStatus _), hat.2.2,
        Prog.bind_ok hb]
      exact hall
    · rw [postEach, Prog.bind_ok hone, if_neg (by decide), World.blockOn_enqueue, World.enqueue_enqueue]
      exact heach

/-- Single waits all return 0, whatever the status of the requests. -/
theorem waitEach_ok (he : cfg.useEventSync = true) (s : Stream) (ps : List Ptr) {w : World} {tape : List Ans}
    (ht : Succeeds tape) (hps : ∀ p ∈ ps, Addressed cfg w p) :
    (postEach (fun p => mpWaitOnStream cfg p s) ps ⟨w, tape⟩).1 = .ok 0 := by
  induction ps generalizing w tape with
  | nil => rfl
  | cons p rest ih =>
    obtain ⟨c, f, hat⟩ := hps p List.mem_cons_self
    have hrest : ∀ q ∈ rest, Addressed cfg w q := fun q hq => hps q (List.mem_cons_of_mem p hq)
    by_cases hst : (w.mem p).status = .complete
    · rw [postEach, Prog.bind_ok (mpWaitOnStream_complete he hat hst tape), if_neg (by decide)]
      exact ih ht hrest
    · obtain ⟨t, ht', hone⟩ := mpWaitOnStream_run he (s := s) hat hst ht
      rw [postEach, Prog.bind_ok hone, if_neg (by decide)]
      refine ih ht' (fun q hq => ?_)
      obtain ⟨d, g, hd⟩ := hrest q hq
      exact ⟨d, g, World.blockOn_at.mpr hd⟩

/-- The batched wait ends the process at a request that is complete. -/
theorem waitAllEvent_complete (ps : List Ptr) {w : World} (descs : List StreamOp) {tape : List Ans}
    (ht : Succeeds tape) (hps : ∀ p ∈ ps, Addressed cfg w p) (hc : ∃ p ∈ ps, (w.mem p).status = .complete) :
    (waitAllEvent cfg ps descs ⟨w, tape⟩).1 = .error .assertStatus := by
  induction ps generalizing w descs tape with
  | nil =>
    obtain ⟨p, hp, -⟩ := hc
    cases hp
  | cons p rest ih =>
    obtain ⟨c, f, hat⟩ := hps p List.mem_cons_self
    have hty : decide ((w.mem p).type ≠ .null) = true := by simp [hat.2.1]
    rw [waitAllEvent, Prog.bind_ok (request_run p w tape), Prog.bind_ok (clientOf_run hat.1 _),
      Prog.bind_ok (require_run hty .assertType _)]
    by_cases hst : (w.mem p).status = .complete
    · have hstop : (Prog.require (decide ((w.mem p).status ≠ .complete)) .assertStatus : M Unit) ⟨w, tape⟩ =
          (.error .assertStatus, ⟨w, tape⟩) := by
        simp [Prog.require, hst]
      rw [Prog.bind_error hstop]
    · have hnc : decide ((w.mem p).status ≠ .complete) = true := by simp [hst]
      obtain ⟨t, ht', hb⟩ := blockOnCompletion_run (c := c) (f := f) (p := p) (w := w) ht descs
      rw [Prog.bind_ok (require_run hnc .assertStatus _), hat.2.2, Prog.bind_ok hb]
      refine ih _ ht' (fun q hq => ?_) ?_
      · obtain ⟨d, g, hd⟩ := hps q (List.mem_cons_of_mem p hq)
        exact ⟨d, g, World.blockOn_at.mpr hd⟩
      · obtain ⟨q, hq, hqc⟩ := hc
        rcases List.mem_cons.mp hq with rfl | hq
        · exact absurd hqc hst
        · obtain ⟨b, hb'⟩ := w.blockOn_mem c f p q
          exact ⟨q, hq, by rw [hb']; exact hqc⟩

theorem mpWaitAllOnStream_complete (he : cfg.useEventSync = true) {ps : List Ptr} (s : Stream) {w : World}
    {tape : List Ans} (ht : Succeeds tape) (hps : ∀ p ∈ ps, Addressed cfg w p)
    (hc : ∃ p ∈ ps, (w.mem p).status = .complete) :
    ∃ y, mpWaitAllOnStream cfg ps s ⟨w, tape⟩ = (.error .assertStatus, y) := by
  have hnil : ps ≠ [] := by
    rintro rfl
    obtain ⟨p, hp, -⟩ := hc
    cases hp
  have hstop := waitAllEvent_complete ps [] ht hps hc
  rw [mpWaitAllOnStream, if_neg hnil, if_pos he]
  cases hw : waitAllEvent cfg ps [] ⟨w, tape⟩ with
  | mk r y =>
    rw [hw] at hstop
    dsimp only at hstop
    rw [hstop] at hw
    exact ⟨y, Prog.bind_error hw _⟩

theorem mpWaitAllOnStream_each (he : cfg.useEventSync = true) {ps : List Ptr} (s : Stream) {w : World}
    {tape₁ tape₂ : List Ans} (h₁ : Succeeds tape₁) (h₂ : Succeeds tape₂)
    (hps : ∀ p ∈ ps, Addressed cfg w p ∧ (w.mem p).status ≠ .complete) :
    ∃ w' t₁ t₂, mpWaitAllOnStream cfg ps s ⟨w, tape₁⟩ = (.ok 0, ⟨w', t₁⟩) ∧
      postEach (fun p => mpWaitOnStream cfg p s) ps ⟨w, tape₂⟩ = (.ok 0, ⟨w', t₂⟩) := by
  by_cases hnil : ps = []
  · rw [hnil]
    exact ⟨w, tape₁, tape₂, rfl, rfl⟩
  · obtain ⟨w', descs', t₁, t₂, ht₁, hb, he'⟩ := waits_together he s ps [] h₁ h₂ hps
    rw [World.enqueue_nil] at he'
    refine ⟨w'.enqueue s descs', t₁.tail, t₂, ?_, he'⟩
    rw [mpWaitAllOnStream, if_neg hnil, if_pos he, Prog.bind_ok hb]
    dsimp only
    rw [if_neg (by decide)]
    exact gdsStreamPostDescriptors_run ht₁ s descs' w'

theorem waitsAgree_iff (he : cfg.useEventSync = true) (ps : List Ptr) (s : Stream) (w : World) {tape₁ tape₂ : List Ans}
    (h₁ : Succeeds tape₁) (h₂ : Succeeds tape₂) (hps : ∀ p ∈ ps, Addressed cfg w p) :
    WaitsAgree cfg w tape₁ tape₂ ps s ↔ ∀ p ∈ ps, (w.mem p).status ≠ .complete := by
  constructor
  · rintro ⟨hret, -⟩ p hp hst
    obtain ⟨y, hy⟩ := mpWaitAllOnStream_complete he s h₁ hps ⟨p, hp, hst⟩
    rw [waitEach_ok he s ps h₂ hps, hy] at hret
    cases hret
  · intro hall
    obtain ⟨w', t₁, t₂, hb, he'⟩ := mpWaitAllOnStream_each he s h₁ h₂ (fun p hp => ⟨hps p hp, hall p hp⟩)
    unfold WaitsAgree
    rw [hb, he']
    exact ⟨rfl, rfl⟩

/-! ### The shortcut of COMM -/

/-- The state of a rank with this world of libmp and these answers. -/
def commAt (w : World) (tape : List Ans) (ready : ReadyTables) (reqs : List Entry) : Comm :=
  { sys := ⟨w, tape⟩, ready, reqs, arrivals := [] }

/-- `comm_wait_all_on_stream` does the same with one request whether it takes
its shortcut or not. -/
def ShortcutAgrees (cc : CommConfig) (w : World) (ready : ReadyTables) (reqs : List Entry) (tape₁ tape₂ : List Ans)
    (p : Ptr) (s : Stream) : Prop :=
  (commWaitAllOnStream cc [p] s (commAt w tape₁ ready reqs)).1 =
    (commWaitManyOnStream cc [p] s (commAt w tape₂ ready reqs)).1 ∧
  (commWaitAllOnStream cc [p] s (commAt w tape₁ ready reqs)).2.sys.w =
    (commWaitManyOnStream cc [p] s (commAt w tape₂ ready reqs)).2.sys.w

/-- A call of libmp in `MP_CHECK`. -/
theorem checked_run {m : M Int} {c : Comm} {y : Sys} (h : m c.sys = (.ok 0, y)) :
    (mpCall m >>= fun result => check result >>= fun _ => pure (0 : Int)) c = (.ok 0, { c with sys := y }) := by
  have hcall : mpCall m c = (.ok 0, { c with sys := y }) := by rw [mpCall, h]
  rw [Prog.bind_ok hcall]
  rfl

theorem checked_error {m : M Int} {c : Comm} {e : Stop} {y : Sys} (h : m c.sys = (.error e, y)) :
    (mpCall m >>= fun result => check result >>= fun _ => pure (0 : Int)) c =
      (.error (.mp e), { c with sys := y }) := by
  have hcall : mpCall m c = (.error (.mp e), { c with sys := y }) := by rw [mpCall, h]
  rw [Prog.bind_error hcall]

theorem shortcutAgrees_iff {cc : CommConfig} (he : cc.mp.useEventSync = true) {p : Ptr} (s : Stream) {w : World}
    (ready : ReadyTables) (reqs : List Entry) {tape₁ tape₂ : List Ans} (h₁ : Succeeds tape₁) (h₂ : Succeeds tape₂)
    (hp : Addressed cc.mp w p) :
    ShortcutAgrees cc w ready reqs tape₁ tape₂ p s ↔ (w.mem p).status ≠ .complete := by
  have hps : ∀ q ∈ [p], Addressed cc.mp w q := fun q hq => List.mem_singleton.mp hq ▸ hp
  obtain ⟨c, f, hat⟩ := hp
  constructor
  · rintro ⟨hret, -⟩ hst
    obtain ⟨y, hy⟩ := mpWaitAllOnStream_complete he s h₂ hps ⟨p, List.mem_cons_self, hst⟩
    have hone : commWaitAllOnStream cc [p] s (commAt w tape₁ ready reqs) = _ :=
      checked_run (mpWaitOnStream_complete he hat hst tape₁)
    have hmany : commWaitManyOnStream cc [p] s (commAt w tape₂ ready reqs) = _ := checked_error hy
    rw [hone, hmany] at hret
    cases hret
  · intro hst
    obtain ⟨t, -, hrun⟩ := mpWaitOnStream_run he (s := s) hat hst h₁
    obtain ⟨w', t₂, t₁, hb, heach⟩ := mpWaitAllOnStream_each he s h₂ h₁
      (fun q hq => ⟨hps q hq, List.mem_singleton.mp hq ▸ hst⟩)
    rw [postEach, Prog.bind_ok hrun, if_neg (by decide)] at heach
    cases heach
    have hone : commWaitAllOnStream cc [p] s (commAt w tape₁ ready reqs) = _ := checked_run hrun
    have hmany : commWaitManyOnStream cc [p] s (commAt w tape₂ ready reqs) = _ := checked_run hb
    unfold ShortcutAgrees
    rw [hone, hmany]
    exact ⟨rfl, rfl⟩

/-- With event sync, in any world and for any requests, all calls succeeding:
`mp_wait_all_on_stream` is the same as single waits exactly when none of the
requests is complete, and so is `comm_wait_all_on_stream` with or without its
shortcut. -/
theorem batched_waits_agree {cc : CommConfig} (he : cc.mp.useEventSync = true) (ps : List Ptr) (s : Stream) (w : World)
    (ready : ReadyTables) (reqs : List Entry) (tape₁ tape₂ : List Ans) (h₁ : Succeeds tape₁) (h₂ : Succeeds tape₂)
    (hps : ∀ p ∈ ps, Addressed cc.mp w p) :
    (WaitsAgree cc.mp w tape₁ tape₂ ps s ↔ ∀ p ∈ ps, (w.mem p).status ≠ .complete) ∧
    ∀ p ∈ ps, (ShortcutAgrees cc w ready reqs tape₁ tape₂ p s ↔ (w.mem p).status ≠ .complete) :=
  ⟨waitsAgree_iff he ps s w h₁ h₂ hps, fun p hp => shortcutAgrees_iff he s ready reqs h₁ h₂ (hps p hp)⟩

/-- Two ranks, with event sync. -/
def eventComm : CommConfig := ⟨eventPeer, 2, 0, ⟨fun _ => 0, fun _ => 0, fun _ => 4096⟩, 0, ⟨0⟩, 0⟩

/-- Progress of the sends: the poll finds the first outstanding completion. -/
def pollFirst : Event := .call (.progress .tx) [{ picks := [0] }]

/-- Two outstanding sends are waited for in the same way. -/
theorem batched_waits_agree_of_sends :
    WaitsAgree eventPeer (World.init.after eventPeer [isendOne, isendOne]) [] [] [0, 1] 0 ∧
    ShortcutAgrees eventComm (World.init.after eventPeer [isendOne, isendOne]) .init [] [] [] 0 0 := by
  have hsucc : Succeeds [] := by simp [Succeeds]
  have hps : ∀ p ∈ [0, 1], Addressed eventComm.mp (World.init.after eventPeer [isendOne, isendOne]) p := by
    intro p hp
    have hpeer : ∀ p ∈ [0, 1], eventPeer.clientIndex ((World.init.after eventPeer [isendOne, isendOne]).mem p).peer =
        some 0 := by decide
    have hty : ∀ p ∈ [0, 1], ((World.init.after eventPeer [isendOne, isendOne]).mem p).type ≠ .null := by decide
    exact ⟨0, _, hpeer p hp, hty p hp, rfl⟩
  obtain ⟨hw, hs⟩ := batched_waits_agree rfl [0, 1] 0 _ .init [] [] [] hsucc hsucc hps
  exact ⟨hw.mpr (by decide), (hs 0 (by decide)).mpr (by decide)⟩

/-- A send that is complete: the single wait returns 0, the batched one ends the
process on an assertion, and so does `comm_wait_all_on_stream` for two requests
but not for one. -/
theorem batched_wait_refuses_complete :
    ∃ w, w = World.init.after eventPeer [isendOne, pollFirst] ∧ Live w 0 ∧ (w.mem 0).status = .complete ∧
      ((Event.call (.waitOnStream 0 0) []).exec eventPeer w).1 = .ok (0, none) ∧
      ((Event.call (.waitAllOnStream [0] 0) []).exec eventPeer w).1 = .error .assertStatus ∧
      (commWaitAllOnStream eventComm [0] 0 (commAt w [] .init [])).1 = .ok 0 ∧
      (commWaitAllOnStream eventComm [0, 0] 0 (commAt w [] .init [])).1 = .error (.mp .assertStatus) := by
  have hreach : Reach eventPeer EventScope (World.init.after eventPeer [isendOne, pollFirst]) :=
    Reach.init.after eventPeer ⟨trivial, by decide, trivial, by decide, trivial⟩
  refine ⟨_, rfl, live_of_reach rfl (fun _ _ h => h) hreach ?_, by decide, rfl, rfl, rfl, rfl⟩
  decide

/-! ## Posts -/

/-- `w₂` is `w₁` but for the streams noted in the requests. -/
structure SameButStream (w₁ w₂ : World) : Prop where
  clients : w₁.clients = w₂.clients
  req : ∀ p, ∃ st, w₂.mem p = { w₁.mem p with stream := st }
  streams : w₁.streams = w₂.streams
  cq : w₁.cq = w₂.cq
  log : w₁.log = w₂.log

/-- `w` with other streams noted in the requests and more operations on `s`:
where the single calls are while the batched call is at `w`. -/
def World.veil (w : World) (st : Ptr → Option Stream) (s : Stream) (ops : List StreamOp) : World :=
  { w with mem := fun p => { w.mem p with stream := st p } }.enqueue s ops

namespace World
variable (w : World) (st : Ptr → Option Stream) (s : Stream) (ops : List StreamOp)

theorem veil_self : w.veil (fun p => (w.mem p).stream) s [] = w := by
  rw [veil, enqueue_nil]

theorem veil_same : SameButStream (w.enqueue s ops) (w.veil st s ops) where
  clients := rfl
  req p := ⟨st p, rfl⟩
  streams := rfl
  cq := rfl
  log := rfl

/-- Assigning other fields of a request than the stream. -/
theorem veil_setReq (p : Ptr) {g : Request → Request}
    (hg : ∀ r o, g { r with stream := o } = { g r with stream := o }) :
    (w.veil st s ops).setReq p g = (w.setReq p g).veil st s ops := by
  have hmem : Function.update (w.veil st s ops).mem p (g ((w.veil st s ops).mem p)) =
      fun q => { (w.setReq p g).mem q with stream := st q } := by
    funext q
    by_cases hq : q = p
    · subst hq
      rw [Function.update_self, setReq_mem, if_pos rfl]
      exact hg _ _
    · rw [Function.update_of_ne hq, setReq_mem, if_neg hq]
      rfl
  simp only [setReq] at hmem ⊢
  rw [hmem]
  rfl

theorem veil_setStream (p : Ptr) (o : Option Stream) :
    (w.veil st s ops).setReq p (fun r => { r with stream := o }) = w.veil (Function.update st p o) s ops := by
  have hmem : Function.update (w.veil st s ops).mem p { (w.veil st s ops).mem p with stream := o } =
      fun q => { w.mem q with stream := Function.update st p o q } := by
    funext q
    by_cases hq : q = p
    · subst hq
      rw [Function.update_self, Function.update_self]
      rfl
    · rw [Function.update_of_ne hq, Function.update_of_ne hq]
      rfl
  simp only [setReq]
  rw [hmem]
  rfl

theorem veil_stamp (c : Nat) (f : Flow) (p : Ptr) : (w.veil st s ops).stamp c f p = (w.stamp c f p).veil st s ops := rfl

theorem veil_addLog (e : LogEv) : (w.veil st s ops).addLog e = (w.addLog e).veil st s ops := rfl

theorem veil_setClient (c : Nat) (g : Client → Client) :
    (w.veil st s ops).setClient c g = (w.setClient c g).veil st s ops := rfl

theorem veil_arm (c : Nat) (f : Flow) (p : Ptr) : (w.veil st s ops).arm c f p = (w.arm c f p).veil st s ops := by
  rw [arm, veil_setReq w st s ops p (fun _ _ => rfl)]
  rfl

theorem veil_append (c : Nat) (f : Flow) (p : Ptr) :
    (w.veil st s ops).append c f p = (w.append c f p).veil st s ops := by
  have hcl : (w.veil st s ops).clients = w.clients := rfl
  unfold append
  rw [hcl]
  cases (w.clients c).postedStreamReq f with
  | none => rfl
  | some _ =>
    cases (w.clients c).lastPostedStreamReq f with
    | none => rfl
    | some q =>
      dsimp only
      rw [veil_setReq w st s ops q (fun _ _ => rfl), veil_setReq _ st s ops p (fun _ _ => rfl), veil_setClient]

theorem veil_blockOn (c : Nat) (f : Flow) (p : Ptr) :
    (w.veil st s ops).blockOn c f p = ((w.blockOn c f p).1.veil st s ops, (w.blockOn c f p).2) := by
  unfold blockOn
  have hsame : ((w.veil st s ops).clients c).lastPostedTrackedId f < ((w.veil st s ops).mem p).id ↔
      (w.clients c).lastPostedTrackedId f < (w.mem p).id := Iff.rfl
  by_cases h : (w.clients c).lastPostedTrackedId f < (w.mem p).id
  · rw [if_pos (hsame.mpr h), if_pos h, veil_arm]
    rfl
  · rw [if_neg (mt hsame.mp h), if_neg h]

theorem veil_enqueue (ops' : List StreamOp) : (w.veil st s ops).enqueue s ops' = w.veil st s (ops ++ ops') := by
  rw [veil, enqueue_enqueue]
  rfl

end World

/-- The single post: blocking is `mp_send_post_on_stream`. -/
def postOne (cfg : Config) (blocking : Bool) (s : Stream) (p : Ptr) : M Int :=
  if blocking then mpSendPostOnStream cfg p s else mpIsendPostOnStream cfg p s

/-- The batched post. -/
def postMany (cfg : Config) (blocking : Bool) (s : Stream) (ps : List Ptr) : M Int :=
  if blocking then mpSendPostAllOnStream cfg ps s else mpIsendPostAllOnStream cfg ps s

/-- With event sync it collects the descriptors and posts them at once. -/
theorem postMany_eq (he : cfg.useEventSync = true) (blocking : Bool) (s : Stream) (ps : List Ptr) :
    postMany cfg blocking s ps = (do
      let (ret, descs) ← postAllEvent cfg blocking s ps []
      if ret ≠ 0 then return ret
      gdsStreamPostDescriptors s descs) := by
  unfold postMany mpSendPostAllOnStream mpIsendPostAllOnStream
  cases blocking <;> simp [he]

/-- The request at `p` is on the posted list of its client. -/
def World.postEvent (w : World) (c : Nat) (p : Ptr) (s : Stream) : World :=
  ((w.stamp c (w.mem p).type.flow p).append c .tx p).addLog (.tracked c p (w.mem p).id s)

/-- What a post makes of the world and adds to the stream after the write. -/
def World.blockIf (w : World) (blocking : Bool) (c : Nat) (p : Ptr) : World × List StreamOp :=
  if blocking then w.blockOn c .tx p else (w, [])

/-- The write by which the stream says that it has come to the request. -/
def World.triggerOp (w : World) (c : Nat) (p : Ptr) : StreamOp :=
  .write (.lastTriggerId c (w.mem p).type.flow) (w.mem p).id

/-- What a post checks. -/
structure PostOk (cfg : Config) (w : World) (c : Nat) (p : Ptr) : Prop where
  client : cfg.clientIndex (w.mem p).peer = some c
  type : (w.mem p).type ≠ .null
  later : ¬ (w.mem p).id ≤ (w.clients c).lastPostedTriggerId (w.mem p).type.flow
  links : (w.stamp c (w.mem p).type.flow p).appendOk c .tx p = true

theorem clientTrackPostedStreamReq_run {c : Nat} {p : Ptr} {s : Stream} {w : World} {tape : List Ans}
    (h : w.appendOk c .tx p = true) : clientTrackPostedStreamReq c p .tx s ⟨w, tape⟩ =
      (.ok (), ⟨(w.append c .tx p).addLog (.tracked c p (w.mem p).id s), tape⟩) := by
  have hw : world ⟨w, tape⟩ = (.ok w, ⟨w, tape⟩) := rfl
  rw [clientTrackPostedStreamReq, Prog.bind_ok hw, Prog.bind_ok (require_run h .assertLinks _)]
  rfl

/-- One round of the batched post, read off a run that came back: the request
passes the checks and the loop goes on, or the loop ends with an error, which
is that of the checks if the outside makes none. -/
theorem postAllEvent_turn {blocking : Bool} {s : Stream} {p : Ptr} {rest : List Ptr} {descs descs' : List StreamOp}
    {w : World} {tape : List Ans} {ret : Int} {y : Sys}
    (h : postAllEvent cfg blocking s (p :: rest) descs ⟨w, tape⟩ = (.ok (ret, descs'), y)) :
    (ret ≠ 0 ∧ (Succeeds tape → y.w = w ∧ ∃ c, cfg.clientIndex (w.mem p).peer = some c ∧
      (w.mem p).id ≤ (w.clients c).lastPostedTriggerId (w.mem p).type.flow)) ∨
    ∃ c t, PostOk cfg w c p ∧ (Succeeds tape → Succeeds t) ∧ postAllEvent cfg blocking s rest
      (descs ++ w.triggerOp c p :: ((w.postEvent c p s).blockIf blocking c p).2)
      ⟨((w.postEvent c p s).blockIf blocking c p).1, t⟩ = (.ok (ret, descs'), y) := by
  rw [postAllEvent, Prog.bind_ok (request_run p w tape)] at h
  obtain ⟨c, hc, h⟩ := clientOf_bind_ok h
  obtain ⟨hty, h⟩ := require_bind_ok h
  have hcl : client c ⟨w, tape⟩ = (.ok (w.clients c), ⟨w, tape⟩) := rfl
  rw [Prog.bind_ok hcl] at h
  -- the order check
  split at h
  · rename_i hid
    cases h
    exact .inl ⟨by decide, fun _ => ⟨rfl, c, hc, hid⟩⟩
  rename_i hid
  rw [Prog.bind_ok (update_run _ _ _)] at h
  obtain ⟨rc, s₃, h₃, h⟩ := Prog.bind_eq_ok h
  obtain ⟨w₃, tape₃⟩ := s₃
  obtain rfl : w₃ = w.stamp c (w.mem p).type.flow p := returnCode_ok h₃
  have hsucc : Succeeds tape → rc = 0 ∧ Succeeds tape₃ := by
    intro ht
    rw [returnCode_run ht] at h₃
    cases h₃
    exact ⟨rfl, ht.tail⟩
  dsimp only at h
  split at h
  · rename_i hrc
    left
    refine ⟨?_, fun ht => absurd (hsucc ht).1 hrc⟩
    cases blocking with
    | true => cases h; exact hrc
    | false => cases h; exact (by decide : mpFailure ≠ 0)
  obtain ⟨_, s₄, h₄, h⟩ := Prog.bind_eq_ok h
  have hlinks : (w.stamp c (w.mem p).type.flow p).appendOk c .tx p = true := by
    obtain ⟨w', s', hw', h₄'⟩ := Prog.bind_eq_ok h₄
    cases hw'
    obtain ⟨_, s'', h₅, -⟩ := Prog.bind_eq_ok h₄'
    exact (require_ok h₅).1
  have hok : PostOk cfg w c p := ⟨hc, of_decide_eq_true hty, hid, hlinks⟩
  rw [clientTrackPostedStreamReq_run hlinks] at h₄
  cases h₄
  -- the request is posted; a blocking post waits for it on the stream too
  cases blocking with
  | false => exact .inr ⟨c, tape₃, hok, fun ht => (hsucc ht).2, h⟩
  | true =>
    obtain ⟨rc', t, hs, hb⟩ := blockOnCompletion_eq c .tx p (w.postEvent c p s) tape₃ (descs ++ [w.triggerOp c p])
    rw [if_pos rfl] at h
    replace h := (Prog.bind_ok hb _).symm.trans h
    dsimp only at h
    split at h
    · rename_i hne
      cases h
      exact .inl ⟨hne, fun ht => absurd (hs (hsucc ht).2).1 hne⟩
    · rw [List.append_assoc] at h
      exact .inr ⟨c, t, hok, fun ht => (hs (hsucc ht).2).2, h⟩

/-- One round of a batched post that returns 0. -/
theorem postAllEvent_cons {blocking : Bool} {s : Stream} {p : Ptr} {rest : List Ptr} {descs descs' : List StreamOp}
    {w : World} {tape : List Ans} {y : Sys}
    (h : postAllEvent cfg blocking s (p :: rest) descs ⟨w, tape⟩ = (.ok (0, descs'), y)) :
    ∃ c t, PostOk cfg w c p ∧ postAllEvent cfg blocking s rest
      (descs ++ w.triggerOp c p :: ((w.postEvent c p s).blockIf blocking c p).2)
      ⟨((w.postEvent c p s).blockIf blocking c p).1, t⟩ = (.ok (0, descs'), y) := by
  rcases postAllEvent_turn h with ⟨hne, -⟩ | ⟨c, t, hok, -, hrest⟩
  · exact absurd rfl hne
  · exact ⟨c, t, hok, hrest⟩

theorem World.append_enqueue (w : World) (c : Nat) (f : Flow) (p : Ptr) (s : Stream) (ops : List StreamOp) :
    (w.enqueue s ops).append c f p = (w.append c f p).enqueue s ops := by
  unfold World.append
  rw [World.enqueue_clients]
  cases (w.clients c).postedStreamReq f with
  | none => rfl
  | some _ => cases (w.clients c).lastPostedStreamReq f <;> rfl

/-- A single post of a request that passes the checks. -/
theorem postOne_run (he : cfg.useEventSync = true) (blocking : Bool) {s : Stream} {p : Ptr} {c : Nat} {v v' : World}
    {tape : List Ans} (hst : (v.mem p).status = .prepared) (hp : PostOk cfg v c p) (ht : Succeeds tape)
    (hv : v' = v.setReq p fun r => { r with stream := some s }) (hp' : PostOk cfg v' c p)
    (hflow : (v'.mem p).type.flow = (v.mem p).type.flow) :
    ∃ t, Succeeds t ∧ postOne cfg blocking s p ⟨v, tape⟩ = (.ok 0,
      ⟨((v'.postEvent c p s).blockIf blocking c p).1.enqueue s
        (v.triggerOp c p :: ((v'.postEvent c p s).blockIf blocking c p).2), t⟩) := by
  have hst' : decide ((v.mem p).status = .prepared) = true := decide_eq_true hst
  have hty : decide ((v.mem p).type ≠ .null) = true := decide_eq_true hp.type
  have hcl : ∀ (w : World) (tape : List Ans), client c ⟨w, tape⟩ = (.ok (w.clients c), ⟨w, tape⟩) := fun _ _ => rfl
  have hlater : ¬ (v.mem p).id ≤ (v'.clients c).lastPostedTriggerId (v.mem p).type.flow := by
    rw [hv]
    exact hp.later
  have hlinks : (v'.stamp c (v.mem p).type.flow p).appendOk c .tx p = true := by
    rw [← hflow]
    exact hp'.links
  have hpost : ((v'.stamp c (v.mem p).type.flow p).append c .tx p).addLog
      (.tracked c p ((v'.stamp c (v.mem p).type.flow p).mem p).id s) = v'.postEvent c p s := by
    rw [← hflow]
    rfl
  cases blocking with
  | true =>
    show ∃ t, Succeeds t ∧ mpSendPostOnStream cfg p s _ = _
    obtain ⟨t, ht', hb⟩ := blockOnCompletion_run (c := c) (f := .tx) (p := p) (w := v'.postEvent c p s) ht.tail
      [v.triggerOp c p]
    refine ⟨t.tail, ht'.tail, ?_⟩
    rw [mpSendPostOnStream, Prog.bind_ok (request_run p v tape), Prog.bind_ok (require_run hst' .assertStatus _),
      Prog.bind_ok (clientOf_run hp.client _), Prog.bind_ok (update_run _ _ _), ← hv, if_pos he,
      Prog.bind_ok (require_run hty .assertType _), Prog.bind_ok (hcl _ _), if_neg hlater,
      Prog.bind_ok (update_run _ _ _), Prog.bind_ok (returnCode_run ht _), if_neg (by decide),
      Prog.bind_ok (clientTrackPostedStreamReq_run hlinks), hpost]
    refine (Prog.bind_ok hb _).trans ?_
    dsimp only
    rw [if_neg (by decide)]
    exact gdsStreamPostDescriptors_run ht' s _ _
  | false =>
    show ∃ t, Succeeds t ∧ mpIsendPostOnStream cfg p s _ = _
    refine ⟨tape.tail.tail, ht.tail.tail, ?_⟩
    rw [mpIsendPostOnStream, Prog.bind_ok (request_run p v tape), Prog.bind_ok (require_run hst' .assertStatus _),
      Prog.bind_ok (update_run _ _ _), ← hv, if_pos he, Prog.bind_ok (clientOf_run hp.client _),
      Prog.bind_ok (require_run hty .assertType _), Prog.bind_ok (hcl _ _), if_neg hlater,
      Prog.bind_ok (update_run _ _ _), Prog.bind_ok (returnCode_run ht _),
      Prog.bind_ok (gdsStreamPostDescriptors_run ht.tail s _ _), if_neg (by decide)]
    -- `mp_isend_post_on_stream` enqueues first and then appends; the two do not interfere
    have hlinks' : ((v'.stamp c (v.mem p).type.flow p).enqueue s [v.triggerOp c p]).appendOk c .tx p = true := hlinks
    refine (Prog.bind_ok (clientTrackPostedStreamReq_run hlinks') _).trans ?_
    rw [World.append_enqueue]
    exact congrArg (fun w : World => (Except.ok 0, (⟨w.enqueue s [v.triggerOp c p], tape.tail.tail⟩ : Sys))) hpost

namespace World
variable (w : World) (st : Ptr → Option Stream) (s : Stream) (ops : List StreamOp)

theorem veil_postEvent (c : Nat) (p : Ptr) (t : Stream) :
    (w.veil st s ops).postEvent c p t = (w.postEvent c p t).veil st s ops := by
  rw [postEvent, veil_stamp, veil_append, veil_addLog]
  rfl

theorem veil_blockIf (blocking : Bool) (c : Nat) (p : Ptr) : (w.veil st s ops).blockIf blocking c p =
    ((w.blockIf blocking c p).1.veil st s ops, (w.blockIf blocking c p).2) := by
  cases blocking with
  | true => exact veil_blockOn w st s ops c .tx p
  | false => rfl

/-- A post leaves the status of every request. -/
theorem posted_status (blocking : Bool) (c : Nat) (p q : Ptr) (t : Stream) :
    (((w.postEvent c p t).blockIf blocking c p).1.mem q).status = (w.mem q).status := by
  have hpost : ((w.postEvent c p t).mem q).status = (w.mem q).status := by
    obtain ⟨n, v, hq⟩ := append_links (w := w.stamp c (w.mem p).type.flow p) (c := c) (f := .tx) (p := p) q
    rw [postEvent, addLog_mem, hq]
    rfl
  cases blocking with
  | true =>
    obtain ⟨b, hb⟩ := (w.postEvent c p t).blockOn_mem c .tx p q
    show (((w.postEvent c p t).blockOn c .tx p).1.mem q).status = _
    rw [hb]
    exact hpost
  | false => exact hpost

end World

/-- The two loops go together as long as the batched post goes on. -/
theorem posts_together (he : cfg.useEventSync = true) {blocking : Bool} {s : Stream} (ps : List Ptr) {w : World}
    {descs descs' : List StreamOp} {tape₁ tape₂ : List Ans} {y : Sys} (h₂ : Succeeds tape₂)
    (hps : ∀ p ∈ ps, (w.mem p).status = .prepared) (st : Ptr → Option Stream)
    (h : postAllEvent cfg blocking s ps descs ⟨w, tape₁⟩ = (.ok (0, descs'), y)) :
    ∃ st' t₂, postEach (postOne cfg blocking s) ps ⟨w.veil st s descs, tape₂⟩ =
      (.ok 0, ⟨y.w.veil st' s descs', t₂⟩) := by
  induction ps generalizing w descs tape₁ tape₂ st with
  | nil =>
    cases h
    exact ⟨st, tape₂, rfl⟩
  | cons p rest ih =>
    obtain ⟨c, t, hp, h⟩ := postAllEvent_cons h
    have hst : ((w.veil st s descs).mem p).status = .prepared := hps p List.mem_cons_self
    have hv : w.veil (Function.update st p (some s)) s descs =
        (w.veil st s descs).setReq p fun r => { r with stream := some s } := (w.veil_setStream st s descs p _).symm
    have hok : ∀ st, PostOk cfg (w.veil st s descs) c p := fun st => ⟨hp.client, hp.type, hp.later, hp.links⟩
    obtain ⟨t₂, ht₂, hone⟩ := postOne_run he blocking hst (hok st) h₂ hv (hok _) rfl
    rw [World.veil_postEvent, World.veil_blockIf, World.veil_enqueue] at hone
    have hrest : ∀ q ∈ rest, (((w.postEvent c p s).blockIf blocking c p).1.mem q).status = .prepared := by
      intro q hq
      rw [World.posted_status]
      exact hps q (List.mem_cons_of_mem p hq)
    obtain ⟨st', u₂, heach⟩ := ih ht₂ hrest (Function.update st p (some s)) h
    refine ⟨st', u₂, ?_⟩
    rw [postEach, Prog.bind_ok hone, if_neg (by decide)]
    exact heach

/-- The descriptors the loop has collected, whatever it returns: two for each
request at most. -/
theorem postAllEvent_length {blocking : Bool} {s : Stream} (ps : List Ptr) {descs descs' : List StreamOp} {ret : Int}
    {x y : Sys} (h : postAllEvent cfg blocking s ps descs x = (.ok (ret, descs'), y)) :
    descs'.length ≤ descs.length + 2 * ps.length := by
  induction ps generalizing descs x with
  | nil =>
    cases h
    simp
  | cons p rest ih =>
    rw [List.length_cons]
    rw [postAllEvent] at h
    obtain ⟨r, s₁, -, h⟩ := Prog.bind_eq_ok h
    obtain ⟨c, s₂, -, h⟩ := Prog.bind_eq_ok h
    obtain ⟨_, s₃, -, h⟩ := Prog.bind_eq_ok h
    obtain ⟨cl, s₄, -, h⟩ := Prog.bind_eq_ok h
    split at h
    · cases h
      omega
    obtain ⟨_, s₅, -, h⟩ := Prog.bind_eq_ok h
    obtain ⟨rc, s₆, -, h⟩ := Prog.bind_eq_ok h
    dsimp only at h
    split at h
    · cases h
      rw [List.length_append, List.length_singleton]
      omega
    obtain ⟨_, s₇, -, h⟩ := Prog.bind_eq_ok h
    cases blocking with
    | false =>
      have hlen := ih h
      rw [List.length_append, List.length_singleton] at hlen
      omega
    | true =>
      rw [if_pos rfl] at h
      obtain ⟨⟨ret', descs₂⟩, s₈, hb, h⟩ := Prog.bind_eq_ok h
      -- the wait is the second descriptor of the request, if there is one
      have hlen₂ : descs₂.length ≤ descs.length + 2 := by
        obtain ⟨rc', t, -, hb'⟩ := blockOnCompletion_eq c .tx p s₇.w s₇.tape
          (descs ++ [.write (.lastTriggerId c r.type.flow) r.id])
        rw [hb'] at hb
        cases hb
        have hops : ((s₇.w.blockOn c .tx p).2).length ≤ 1 := by
          unfold World.blockOn
          split <;> simp
        rw [List.length_append, List.length_append, List.length_singleton]
        omega
      dsimp only at h
      split at h
      · cases h
        omega
      · have hlen := ih h
        omega

/-- With event sync, in any world and for any prepared requests: where a batched
post returns 0, single posts in the same order, all calls succeeding, all
return 0 and leave the same, the stream noted in the requests apart. The
descriptors fit the two slots a request has, also where the batched post
fails. -/
theorem batched_event_posts_agree (he : cfg.useEventSync = true) (blocking : Bool) (ps : List Ptr) (s : Stream)
    (w : World) (tape₁ tape₂ : List Ans) (h₂ : Succeeds tape₂) (hps : ∀ p ∈ ps, (w.mem p).status = .prepared) :
    ((postMany cfg blocking s ps ⟨w, tape₁⟩).1 = .ok 0 →
      (postEach (postOne cfg blocking s) ps ⟨w, tape₂⟩).1 = .ok 0 ∧
      SameButStream (postMany cfg blocking s ps ⟨w, tape₁⟩).2.w (postEach (postOne cfg blocking s) ps ⟨w, tape₂⟩).2.w) ∧
    ∀ ret descs y, postAllEvent cfg blocking s ps [] ⟨w, tape₁⟩ = (.ok (ret, descs), y) →
      descs.length ≤ 2 * ps.length := by
  constructor
  · intro hret
    rw [postMany_eq he] at hret ⊢
    cases hrun : (do
        let (ret, descs) ← postAllEvent cfg blocking s ps []
        if ret ≠ 0 then return ret
        gdsStreamPostDescriptors s descs : M Int) ⟨w, tape₁⟩ with
    | mk r z =>
      rw [hrun] at hret
      dsimp only at hret
      rw [hret] at hrun
      obtain ⟨⟨ret, descs⟩, y, hall, hpost⟩ := Prog.bind_eq_ok hrun
      dsimp only at hpost
      split at hpost
      · rename_i hne
        cases hpost
        exact absurd rfl hne
      · rename_i h0
        rw [not_not.mp h0] at hall
        obtain ⟨st, t₂, heach⟩ := posts_together he ps h₂ hps (fun p => (w.mem p).stream) hall
        rw [World.veil_self] at heach
        rw [heach, gdsStreamPostDescriptors_ok hpost]
        exact ⟨rfl, y.w.veil_same st s descs⟩
  · intro ret descs y h
    have hlen := postAllEvent_length ps h
    rw [List.length_nil, Nat.zero_add] at hlen
    exact hlen

/-- Two prepared sends, posted at once and one by one, blocking and not. -/
theorem batched_event_posts_agree_of_sends :
    ∃ w, w = World.init.after eventPeer [prepareOne, prepareOne] ∧
      (postMany eventPeer true 0 [0, 1] ⟨w, []⟩).1 = .ok 0 ∧
      SameButStream (postMany eventPeer true 0 [0, 1] ⟨w, []⟩).2.w
        (postEach (postOne eventPeer true 0) [0, 1] ⟨w, []⟩).2.w ∧
      (postMany eventPeer false 0 [0, 1] ⟨w, []⟩).1 = .ok 0 ∧
      SameButStream (postMany eventPeer false 0 [0, 1] ⟨w, []⟩).2.w
        (postEach (postOne eventPeer false 0) [0, 1] ⟨w, []⟩).2.w := by
  have hsucc : Succeeds [] := by simp [Succeeds]
  have hps : ∀ p ∈ [0, 1], ((World.init.after eventPeer [prepareOne, prepareOne]).mem p).status = .prepared := by decide
  have he : eventPeer.useEventSync = true := rfl
  obtain ⟨hsend, -⟩ := batched_event_posts_agree he true [0, 1] 0 _ [] [] hsucc hps
  obtain ⟨hisend, -⟩ := batched_event_posts_agree he false [0, 1] 0 _ [] [] hsucc hps
  have hret : (postMany eventPeer true 0 [0, 1] ⟨World.init.after eventPeer [prepareOne, prepareOne], []⟩).1 =
      .ok 0 := rfl
  have hret' : (postMany eventPeer false 0 [0, 1] ⟨World.init.after eventPeer [prepareOne, prepareOne], []⟩).1 =
      .ok 0 := rfl
  exact ⟨_, rfl, hret, (hsend hret).2, hret', (hisend hret').2⟩

end LibMp
