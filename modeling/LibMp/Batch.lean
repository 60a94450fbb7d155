import LibMp.Completion

/- The batched posts of prepared sends, without event sync.

   `mp_send_post_all_on_stream` and `mp_isend_post_all_on_stream` against the
   same number of calls of `mp_send_post_on_stream` and
   `mp_isend_post_on_stream`: what each of the four leaves is computed once
   (`postEach_run`, `postAll_run`), then compared. -/
namespace LibMp
variable {cfg : Config}

/-- A request of `mp_send_prepare` or `mp_sendv_prepare` that was not posted. -/
structure PreparedReq (cfg : Config) (w : World) (p : Ptr) : Prop where
  status : (w.mem p).status = .prepared
  owner : (w.mem p).owner = some .mpSendPrepare ∨ (w.mem p).owner = some .mpSendvPrepare
  client : ∃ c, cfg.clientIndex (w.mem p).peer = some c

/-- Calls of `one` for each request in turn, while they return 0. -/
def postEach (one : Ptr → M Int) : List Ptr → M Int
  | [] => return 0
  | p :: rest => do
    let ret ← one p
    if ret ≠ 0 then return ret
    postEach one rest

/-- The send infos among operations of a stream. -/
def sendInfos (ops : List StreamOp) : List (Option SendInfo) :=
  ops.filterMap fun
    | .send info => some info
    | _ => none

/-- The wait infos among operations of a stream. -/
def waitInfos (ops : List StreamOp) : List (Option WaitInfo) :=
  ops.filterMap fun
    | .waitCq info => some info
    | _ => none

/-- From `w`, the batched call has left `w₁` and the single calls have left `w₂`:
the same status everywhere, every send info on the stream once and in order, the
same wait infos, and a completion of any of the requests is processed. -/
structure SamePosts (cfg : Config) (w w₁ w₂ : World) (ps : List Ptr) (s : Stream) : Prop where
  status : ∀ p, (w₁.mem p).status = (w₂.mem p).status
  sends : sendInfos (w₁.streams s).todo = sendInfos (w.streams s).todo ++ ps.map fun p => (w.mem p).gdsSendInfo
  same_sends : sendInfos (w₁.streams s).todo = sendInfos (w₂.streams s).todo
  same_waits : waitInfos (w₁.streams s).todo = waitInfos (w₂.streams s).todo
  accepted : ∀ p ∈ ps, ∀ (c : Nat) (f : Flow) (k : Nat) (wr : Wr) tape, (w₁.cq c f)[k]? = some wr → wr.wrId = p →
    (progressCompletion cfg c f k ⟨w₁, tape⟩).1 = .ok ()

/-- Both ways return 0 and leave the same. -/
def PostsAgree (cfg : Config) (batch : M Int) (one : Ptr → M Int) (w : World) (tape₁ tape₂ : List Ans)
    (ps : List Ptr) (s : Stream) : Prop :=
  (batch ⟨w, tape₁⟩).1 = .ok 0 ∧ (postEach one ps ⟨w, tape₂⟩).1 = .ok 0 ∧
    SamePosts cfg w (batch ⟨w, tape₁⟩).2.w (postEach one ps ⟨w, tape₂⟩).2.w ps s

/-! ## What the calls leave -/

/-- All calls to the outside succeed. -/
def Succeeds (tape : List Ans) : Prop := ∀ ans ∈ tape, ans.rc = 0

theorem Succeeds.tail {tape : List Ans} (h : Succeeds tape) : Succeeds tape.tail :=
  fun ans ha => h ans (List.mem_of_mem_tail ha)

theorem returnCode_run {tape : List Ans} (h : Succeeds tape) (w : World) :
    returnCode ⟨w, tape⟩ = (.ok 0, ⟨w, tape.tail⟩) := by
  cases tape with
  | nil => rfl
  | cons ans tape =>
    have hrc : ans.rc = 0 := h ans List.mem_cons_self
    show (Except.ok ans.rc, _) = _
    rw [hrc]
    rfl

theorem launchAll_mem (w : World) (infos : List (Option SendInfo)) : (launchAll w infos).mem = w.mem := by
  induction infos generalizing w with
  | nil => rfl
  | cons info rest ih =>
    cases info with
    | none => exact ih w
    | some i => exact ih (w.launch i)

theorem launchAll_streams (w : World) (infos : List (Option SendInfo)) :
    (launchAll w infos).streams = w.streams := by
  induction infos generalizing w with
  | nil => rfl
  | cons info rest ih =>
    cases info with
    | none => exact ih w
    | some i => exact ih (w.launch i)

theorem giveAll_mem (w : World) (ps : List Ptr) : (ps.foldl World.give w).mem = w.mem := by
  induction ps generalizing w with
  | nil => rfl
  | cons p rest ih => exact ih (w.give p)

theorem giveAll_streams (w : World) (ps : List Ptr) : (ps.foldl World.give w).streams = w.streams := by
  induction ps generalizing w with
  | nil => rfl
  | cons p rest ih => exact ih (w.give p)

theorem gdsStreamPostSendAll_run {tape : List Ans} (h : Succeeds tape) (s : Stream) (infos : List (Option SendInfo))
    (w : World) : gdsStreamPostSendAll s infos ⟨w, tape⟩ =
      (.ok 0, ⟨(launchAll w infos).enqueue s (infos.map .send), tape.tail⟩) := by
  rw [gdsStreamPostSendAll, Prog.bind_ok (returnCode_run h w)]
  rfl

theorem gdsStreamPostWaitCq_run {tape : List Ans} (h : Succeeds tape) (s : Stream) (p : Ptr) (w : World) :
    gdsStreamPostWaitCq s p ⟨w, tape⟩ =
      (.ok 0, ⟨(w.give p).enqueue s [.waitCq (w.mem p).gdsWaitInfo], tape.tail⟩) := by
  have hg : update (fun w => w.give p) ⟨w, tape⟩ = (.ok (), ⟨w.give p, tape⟩) := rfl
  rw [gdsStreamPostWaitCq, Prog.bind_ok hg, Prog.bind_ok (returnCode_run h _)]
  rfl

theorem gdsStreamPostWaitCqAll_run {tape : List Ans} (h : Succeeds tape) (s : Stream) (ps : List Ptr)
    (infos : List (Option WaitInfo)) (w : World) : gdsStreamPostWaitCqAll s ps infos ⟨w, tape⟩ =
      (.ok 0, ⟨(ps.foldl World.give w).enqueue s (infos.map .waitCq), tape.tail⟩) := by
  have hg : update (fun w => ps.foldl World.give w) ⟨w, tape⟩ = (.ok (), ⟨ps.foldl World.give w, tape⟩) := rfl
  rw [gdsStreamPostWaitCqAll, Prog.bind_ok hg, Prog.bind_ok (returnCode_run h _)]
  rfl

theorem request_run (p : Ptr) (w : World) (tape : List Ans) : request p ⟨w, tape⟩ = (.ok (w.mem p), ⟨w, tape⟩) := rfl

theorem update_run (g : World → World) (w : World) (tape : List Ans) :
    update g ⟨w, tape⟩ = (.ok (), ⟨g w, tape⟩) := rfl

theorem require_run {b : Bool} (h : b = true) (e : Stop) (s : Sys) : (Prog.require b e : M Unit) s = (.ok (), s) := by
  rw [h]
  rfl

theorem clientOf_run {peer c : Nat} (h : cfg.clientIndex peer = some c) (s : Sys) :
    clientOf cfg peer s = (.ok c, s) := by
  rw [clientOf, h]
  rfl

/-! ## The single posts -/

/-- The request at `p` is now posted on `s`. -/
def World.markPosted (w : World) (p : Ptr) (s : Stream) (st : State) : World :=
  w.setReq p fun r => { r with stream := some s, status := st }

/-- The world after the send of the request at `p` was handed to `s`. -/
def World.sendPosted (w : World) (p : Ptr) (s : Stream) (st : State) : World :=
  (launchAll (w.markPosted p s st) [(w.mem p).gdsSendInfo]).enqueue s [.send (w.mem p).gdsSendInfo]

theorem World.sendPosted_mem (w : World) (p : Ptr) (s : Stream) (st : State) :
    (w.sendPosted p s st).mem = (w.markPosted p s st).mem := by
  rw [World.sendPosted, World.enqueue_mem, launchAll_mem]

theorem World.sendPosted_todo (w : World) (p : Ptr) (s : Stream) (st : State) :
    ((w.sendPosted p s st).streams s).todo = (w.streams s).todo ++ [.send (w.mem p).gdsSendInfo] := by
  rw [World.sendPosted, World.enqueue_streams, if_pos rfl, launchAll_streams]
  rfl

theorem World.markPosted_two (w : World) (p : Ptr) (s : Stream) (st : State) :
    (w.setReq p fun r => { r with stream := some s }).setStatus p st = w.markPosted p s st := by
  simp [World.setStatus, World.markPosted, World.setReq, Function.update_idem]

theorem mpIsendPostOnStream_run (he : cfg.useEventSync = false) (s : Stream) {p : Ptr} {w : World} {tape : List Ans}
    (hp : (w.mem p).status = .prepared) (ht : Succeeds tape) :
    mpIsendPostOnStream cfg p s ⟨w, tape⟩ = (.ok 0, ⟨w.sendPosted p s .pendingNowait, tape.tail⟩) := by
  have hst : decide ((w.mem p).status = .prepared) = true := by simp [hp]
  rw [mpIsendPostOnStream, Prog.bind_ok (request_run p w tape), Prog.bind_ok (require_run hst .assertStatus _),
    Prog.bind_ok (update_run _ _ _), if_neg (by simp [he]), Prog.bind_ok (update_run _ _ _), World.markPosted_two]
  exact gdsStreamPostSendAll_run ht s _ _

theorem mpSendPostOnStream_run (he : cfg.useEventSync = false) (s : Stream) {p : Ptr} {w : World} {tape : List Ans}
    (hp : PreparedReq cfg w p) (ht : Succeeds tape) :
    mpSendPostOnStream cfg p s ⟨w, tape⟩ =
      (.ok 0, ⟨((w.sendPosted p s .pending).give p).enqueue s [.waitCq (w.mem p).gdsWaitInfo], tape.tail.tail⟩) := by
  obtain ⟨c, hc⟩ := hp.client
  have hst : decide ((w.mem p).status = .prepared) = true := by simp [hp.status]
  have hinfo : ((w.sendPosted p s .pending).mem p).gdsWaitInfo = (w.mem p).gdsWaitInfo := by
    simp [World.sendPosted_mem, World.markPosted]
  rw [mpSendPostOnStream, Prog.bind_ok (request_run p w tape), Prog.bind_ok (require_run hst .assertStatus _),
    Prog.bind_ok (clientOf_run hc _), Prog.bind_ok (update_run _ _ _), if_neg (by simp [he]),
    Prog.bind_ok (update_run _ _ _), World.markPosted_two]
  have hsend := gdsStreamPostSendAll_run ht s [(w.mem p).gdsSendInfo] (w.markPosted p s .pending)
  rw [gdsStreamPostSend, Prog.bind_ok hsend, if_neg (by decide)]
  rw [show (launchAll (w.markPosted p s .pending) [(w.mem p).gdsSendInfo]).enqueue s
    ([(w.mem p).gdsSendInfo].map .send) = w.sendPosted p s .pending from rfl, gdsStreamPostWaitCq_run ht.tail, hinfo]

/-! ## One call after the other -/

/-- What a call of the kind `one` leaves for each request it posts: the status
`st`, and the operations `ops` on the stream. -/
structure Posts (cfg : Config) (one : Ptr → M Int) (s : Stream) (st : State) (ops : Request → List StreamOp) :
    Prop where
  run : ∀ p w tape, PreparedReq cfg w p → Succeeds tape → ∃ w' tape', one p ⟨w, tape⟩ = (.ok 0, ⟨w', tape'⟩) ∧
    Succeeds tape' ∧ w'.mem = (w.markPosted p s st).mem ∧
    (w'.streams s).todo = (w.streams s).todo ++ ops (w.mem p)

theorem mpIsendPost_posts (he : cfg.useEventSync = false) (s : Stream) :
    Posts cfg (fun p => mpIsendPostOnStream cfg p s) s .pendingNowait (fun r => [.send r.gdsSendInfo]) where
  run p w _ hp ht := ⟨_, _, mpIsendPostOnStream_run he s hp.status ht, ht.tail, w.sendPosted_mem p s _,
    w.sendPosted_todo p s _⟩

theorem mpSendPost_posts (he : cfg.useEventSync = false) (s : Stream) :
    Posts cfg (fun p => mpSendPostOnStream cfg p s) s .pending
      (fun r => [.send r.gdsSendInfo, .waitCq r.gdsWaitInfo]) where
  run p w _ hp ht := by
    refine ⟨_, _, mpSendPostOnStream_run he s hp ht, ht.tail.tail, w.sendPosted_mem p s _, ?_⟩
    rw [World.enqueue_streams, if_pos rfl]
    show ((w.sendPosted p s .pending).streams s).todo ++ _ = _
    rw [World.sendPosted_todo, List.append_assoc]
    rfl

/-- What a call of the kind `one` does with a request that satisfies `pre`:
`mark` is what becomes of the request, `ops` what the stream gets. -/
structure Does (pre : Request → Prop) (one : Ptr → M Int) (s : Stream) (mark : Request → Request)
    (ops : Request → List StreamOp) : Prop where
  run : ∀ p w tape, pre (w.mem p) → Succeeds tape → ∃ w' tape', one p ⟨w, tape⟩ = (.ok 0, ⟨w', tape'⟩) ∧
    Succeeds tape' ∧ w'.mem = (w.setReq p mark).mem ∧ (w'.streams s).todo = (w.streams s).todo ++ ops (w.mem p)

/-- After calls for distinct requests every one of them is marked, and the
operations stand on the stream in the order of the calls. -/
theorem Does.each {pre : Request → Prop} {one : Ptr → M Int} {s : Stream} {mark : Request → Request}
    {ops : Request → List StreamOp} (hone : Does pre one s mark ops) (ps : List Ptr) {w : World} {tape : List Ans}
    (hnd : ps.Nodup) (hps : ∀ p ∈ ps, pre (w.mem p)) (ht : Succeeds tape) :
    ∃ w' tape', postEach one ps ⟨w, tape⟩ = (.ok 0, ⟨w', tape'⟩) ∧
      (∀ q, w'.mem q = if q ∈ ps then mark (w.mem q) else w.mem q) ∧
      (w'.streams s).todo = (w.streams s).todo ++ ps.flatMap fun p => ops (w.mem p) := by
  induction ps generalizing w tape with
  | nil => exact ⟨w, tape, rfl, by simp, by simp⟩
  | cons p rest ih =>
    obtain ⟨hp, hnd'⟩ := List.nodup_cons.mp hnd
    obtain ⟨w₁, tape₁, hrun, ht₁, hm, hq⟩ := hone.run p w tape (hps p List.mem_cons_self) ht
    have hother : ∀ q, q ≠ p → w₁.mem q = w.mem q := by
      intro q hne
      rw [hm, World.setReq_mem, if_neg hne]
    have hrest : ∀ q ∈ rest, w₁.mem q = w.mem q := fun q hqr => hother q (fun h => hp (h ▸ hqr))
    have hps₁ : ∀ q ∈ rest, pre (w₁.mem q) := by
      intro q hqr
      rw [hrest q hqr]
      exact hps q (List.mem_cons_of_mem p hqr)
    obtain ⟨w₂, tape₂, hrun₂, hm₂, hq₂⟩ := ih hnd' hps₁ ht₁
    refine ⟨w₂, tape₂, ?_, fun q => ?_, ?_⟩
    · rw [postEach, Prog.bind_ok hrun, if_neg (by decide)]
      exact hrun₂
    · rw [hm₂ q]
      by_cases hqp : q = p
      · rw [hqp, if_neg hp, if_pos List.mem_cons_self, hm, World.setReq_mem, if_pos rfl]
      · simp only [List.mem_cons, hqp, false_or, hother q hqp]
    · rw [hq₂, hq, List.append_assoc, List.flatMap_cons]
      congr 2
      exact List.flatMap_congr fun q hqr => by rw [hrest q hqr]

theorem Posts.does {one : Ptr → M Int} {s : Stream} {st : State} {ops : Request → List StreamOp}
    (h : Posts cfg one s st ops) :
    Does (fun r => r.status = .prepared ∧ (r.owner = some .mpSendPrepare ∨ r.owner = some .mpSendvPrepare) ∧
      ∃ c, cfg.clientIndex r.peer = some c) one s (fun r => { r with stream := some s, status := st }) ops where
  run p w tape hp ht := h.run p w tape ⟨hp.1, hp.2.1, hp.2.2⟩ ht

/-- After the single calls every request has the status, and the operations
stand on the stream in the order of the calls. -/
theorem postEach_run {one : Ptr → M Int} {s : Stream} {st : State} {ops : Request → List StreamOp}
    (hone : Posts cfg one s st ops) (ps : List Ptr) {w : World} {tape : List Ans} (hnd : ps.Nodup)
    (hps : ∀ p ∈ ps, PreparedReq cfg w p) (ht : Succeeds tape) :
    ∃ w' tape', postEach one ps ⟨w, tape⟩ = (.ok 0, ⟨w', tape'⟩) ∧
      (∀ q, w'.mem q = if q ∈ ps then { w.mem q with stream := some s, status := st } else w.mem q) ∧
      (w'.streams s).todo = (w.streams s).todo ++ ps.flatMap fun p => ops (w.mem p) :=
  hone.does.each ps hnd (fun p hp => ⟨(hps p hp).status, (hps p hp).owner, (hps p hp).client⟩) ht

/-! ## The batched calls -/

theorem copyInfos_run {ps : List Ptr} {w : World} (hps : ∀ p ∈ ps, PreparedReq cfg w p) (tape : List Ans) :
    copyInfos ps ⟨w, tape⟩ =
      (.ok (ps.map fun p => (w.mem p).gdsSendInfo, ps.map fun p => (w.mem p).gdsWaitInfo), ⟨w, tape⟩) := by
  induction ps with
  | nil => rfl
  | cons p rest ih =>
    have hst : decide ((w.mem p).status = .prepared) = true := by simp [(hps p List.mem_cons_self).status]
    rw [copyInfos, Prog.bind_ok (request_run p w tape), Prog.bind_ok (require_run hst .assertStatus _),
      Prog.bind_ok (ih fun q hq => hps q (List.mem_cons_of_mem p hq))]
    rfl

/-- The world after `mp_send_post_all_on_stream`: the requests are as they were. -/
theorem mpSendPostAllOnStream_run (he : cfg.useEventSync = false) (s : Stream) {ps : List Ptr} {w : World}
    {tape : List Ans} (hps : ∀ p ∈ ps, PreparedReq cfg w p) (ht : Succeeds tape) :
    ∃ w' tape', mpSendPostAllOnStream cfg ps s ⟨w, tape⟩ = (.ok 0, ⟨w', tape'⟩) ∧ w'.mem = w.mem ∧
      (w'.streams s).todo = (w.streams s).todo ++ (ps.map fun p => .send (w.mem p).gdsSendInfo) ++
        ps.map fun p => .waitCq (w.mem p).gdsWaitInfo := by
  have hrun : mpSendPostAllOnStream cfg ps s ⟨w, tape⟩ = (.ok 0,
      ⟨(ps.foldl World.give ((launchAll w (ps.map fun p => (w.mem p).gdsSendInfo)).enqueue s
        ((ps.map fun p => (w.mem p).gdsSendInfo).map .send))).enqueue s
          ((ps.map fun p => (w.mem p).gdsWaitInfo).map .waitCq), tape.tail.tail⟩) := by
    rw [mpSendPostAllOnStream, if_neg (by simp [he]), Prog.bind_ok (copyInfos_run hps tape)]
    dsimp only
    rw [Prog.bind_ok (gdsStreamPostSendAll_run ht s _ w), if_neg (by decide)]
    exact gdsStreamPostWaitCqAll_run ht.tail s ps _ _
  refine ⟨_, _, hrun, ?_, ?_⟩
  · rw [World.enqueue_mem, giveAll_mem, World.enqueue_mem, launchAll_mem]
  · rw [World.enqueue_streams, if_pos rfl, giveAll_streams, World.enqueue_streams, if_pos rfl, launchAll_streams]
    simp [Function.comp_def]

theorem startAll_run (o : Option Stream) {ps : List Ptr} {w : World} (hnd : ps.Nodup)
    (hps : ∀ p ∈ ps, (w.mem p).status = .prepared) (tape : List Ans) :
    ∃ w', startAll o ps ⟨w, tape⟩ = (.ok (ps.map fun p => (w.mem p).gdsSendInfo), ⟨w', tape⟩) ∧
      (∀ q, w'.mem q = if q ∈ ps then { w.mem q with
        stream := o.orElse fun _ => (w.mem q).stream, status := .pendingNowait } else w.mem q) ∧
      w'.streams = w.streams := by
  induction ps generalizing w with
  | nil => exact ⟨w, rfl, by simp, rfl⟩
  | cons p rest ih =>
    obtain ⟨hp, hnd'⟩ := List.nodup_cons.mp hnd
    have hst : decide ((w.mem p).status = .prepared) = true := by simp [hps p List.mem_cons_self]
    let w₁ := w.setReq p fun r => { r with stream := o.orElse fun _ => r.stream, status := .pendingNowait }
    have hother : ∀ q, q ≠ p → w₁.mem q = w.mem q := by
      intro q hne
      rw [World.setReq_mem, if_neg hne]
    have hrest : ∀ q ∈ rest, w₁.mem q = w.mem q := fun q hqr => hother q (fun h => hp (h ▸ hqr))
    have hps₁ : ∀ q ∈ rest, (w₁.mem q).status = .prepared := by
      intro q hqr
      rw [hrest q hqr]
      exact hps q (List.mem_cons_of_mem p hqr)
    obtain ⟨w', hrun, hm, hq⟩ := ih hnd' hps₁
    refine ⟨w', ?_, fun q => ?_, hq⟩
    · rw [startAll, Prog.bind_ok (request_run p w tape), Prog.bind_ok (require_run hst .assertStatus _),
        Prog.bind_ok (update_run _ _ _)]
      refine (Prog.bind_ok hrun _).trans ?_
      rw [Prog.pure_run, List.map_cons, List.map_congr_left fun q hqr => by rw [hrest q hqr]]
    · rw [hm q]
      by_cases hqp : q = p
      · rw [hqp, if_neg hp, if_pos List.mem_cons_self, World.setReq_mem, if_pos rfl]
      · simp only [List.mem_cons, hqp, false_or, hother q hqp]

theorem mpIsendPostAllOnStream_run (he : cfg.useEventSync = false) (s : Stream) {ps : List Ptr} {w : World}
    {tape : List Ans} (hnd : ps.Nodup) (hps : ∀ p ∈ ps, PreparedReq cfg w p) (ht : Succeeds tape) :
    ∃ w' tape', mpIsendPostAllOnStream cfg ps s ⟨w, tape⟩ = (.ok 0, ⟨w', tape'⟩) ∧
      (∀ q, w'.mem q = if q ∈ ps then { w.mem q with stream := some s, status := .pendingNowait } else w.mem q) ∧
      (w'.streams s).todo = (w.streams s).todo ++ ps.map fun p => .send (w.mem p).gdsSendInfo := by
  obtain ⟨w₁, hrun, hm, hq⟩ := startAll_run (some s) hnd (fun p hp => (hps p hp).status) tape
  have hall : mpIsendPostAllOnStream cfg ps s ⟨w, tape⟩ = (.ok 0,
      ⟨(launchAll w₁ (ps.map fun p => (w.mem p).gdsSendInfo)).enqueue s
        ((ps.map fun p => (w.mem p).gdsSendInfo).map .send), tape.tail⟩) := by
    rw [mpIsendPostAllOnStream, if_neg (by simp [he]), Prog.bind_ok hrun]
    exact gdsStreamPostSendAll_run ht s _ w₁
  refine ⟨_, _, hall, fun q => ?_, ?_⟩
  · rw [World.enqueue_mem, launchAll_mem, hm]
    rfl
  · rw [World.enqueue_streams, if_pos rfl, launchAll_streams, hq]
    simp [Function.comp_def]

/-! ## The comparison -/

theorem sendInfos_append (l₁ l₂ : List StreamOp) : sendInfos (l₁ ++ l₂) = sendInfos l₁ ++ sendInfos l₂ :=
  List.filterMap_append

theorem waitInfos_append (l₁ l₂ : List StreamOp) : waitInfos (l₁ ++ l₂) = waitInfos l₁ ++ waitInfos l₂ :=
  List.filterMap_append

section Infos
variable (w : World) (ps : List Ptr)

theorem sendInfos_sends : sendInfos (ps.map fun p => .send (w.mem p).gdsSendInfo) =
    ps.map fun p => (w.mem p).gdsSendInfo := by
  induction ps with
  | nil => rfl
  | cons p rest ih => exact congrArg _ ih

theorem waitInfos_sends : waitInfos (ps.map fun p => .send (w.mem p).gdsSendInfo) = [] := by
  induction ps with
  | nil => rfl
  | cons p rest ih => exact ih

theorem sendInfos_waits : sendInfos (ps.map fun p => .waitCq (w.mem p).gdsWaitInfo) = [] := by
  induction ps with
  | nil => rfl
  | cons p rest ih => exact ih

theorem waitInfos_waits : waitInfos (ps.map fun p => .waitCq (w.mem p).gdsWaitInfo) =
    ps.map fun p => (w.mem p).gdsWaitInfo := by
  induction ps with
  | nil => rfl
  | cons p rest ih => exact congrArg _ ih

/-- What the single blocking posts enqueue: sends and waits in turn. -/
theorem infos_pairs :
    sendInfos (ps.flatMap fun p => [.send (w.mem p).gdsSendInfo, .waitCq (w.mem p).gdsWaitInfo]) =
      (ps.map fun p => (w.mem p).gdsSendInfo) ∧
    waitInfos (ps.flatMap fun p => [.send (w.mem p).gdsSendInfo, .waitCq (w.mem p).gdsWaitInfo]) =
      ps.map fun p => (w.mem p).gdsWaitInfo := by
  induction ps with
  | nil => exact ⟨rfl, rfl⟩
  | cons p rest ih => exact ⟨congrArg _ ih.1, congrArg _ ih.2⟩

end Infos

/-- A completion of a pending request is processed. -/
theorem accepted_of_pending (he : cfg.useEventSync = false) {w : World} {c : Nat} {f : Flow} {k : Nat} {wr : Wr}
    {tape : List Ans} (hk : (w.cq c f)[k]? = some wr) (hp : (w.mem wr.wrId).status.isPending) :
    (progressCompletion cfg c f k ⟨w, tape⟩).1 = .ok () := by
  have ht : w.TrackedOk cfg c f wr.wrId := by
    intro h
    rw [he] at h
    cases h
  rw [progressCompletion_run hk hp ht]

/-- `mp_isend_post_all_on_stream` is the same as single posts. -/
theorem isendPosts_agree (he : cfg.useEventSync = false) {ps : List Ptr} (s : Stream) {w : World}
    {tape₁ tape₂ : List Ans} (hnd : ps.Nodup) (hps : ∀ p ∈ ps, PreparedReq cfg w p) (h₁ : Succeeds tape₁)
    (h₂ : Succeeds tape₂) : PostsAgree cfg (mpIsendPostAllOnStream cfg ps s)
      (fun p => mpIsendPostOnStream cfg p s) w tape₁ tape₂ ps s := by
  obtain ⟨w₁, t₁, hr₁, hm₁, hq₁⟩ := mpIsendPostAllOnStream_run he s hnd hps h₁
  obtain ⟨w₂, t₂, hr₂, hm₂, hq₂⟩ := postEach_run (mpIsendPost_posts he s) ps hnd hps h₂
  have hops : (ps.flatMap fun p => [StreamOp.send (w.mem p).gdsSendInfo]) =
      ps.map fun p => .send (w.mem p).gdsSendInfo := List.map_eq_flatMap.symm
  rw [hops] at hq₂
  unfold PostsAgree
  rw [hr₁, hr₂]
  refine ⟨rfl, rfl, ⟨fun p => ?_, ?_, ?_, ?_, ?_⟩⟩
  · show (w₁.mem p).status = (w₂.mem p).status
    rw [hm₁, hm₂]
  · show sendInfos (w₁.streams s).todo = _
    rw [hq₁, sendInfos_append, sendInfos_sends]
  · show sendInfos (w₁.streams s).todo = sendInfos (w₂.streams s).todo
    rw [hq₁, hq₂]
  · show waitInfos (w₁.streams s).todo = waitInfos (w₂.streams s).todo
    rw [hq₁, hq₂]
  · intro p hp c f k wr tape hk hwr
    refine accepted_of_pending he hk ?_
    rw [hwr]
    show (w₁.mem p).status.isPending
    rw [hm₁, if_pos hp]
    trivial

/-- `mp_send_post_all_on_stream` hands the same infos to the stream as single posts. -/
theorem sendPosts_infos {ps : List Ptr} {s : Stream} {w w₁ w₂ : World}
    (h₁ : (w₁.streams s).todo = (w.streams s).todo ++ (ps.map fun p => .send (w.mem p).gdsSendInfo) ++
      ps.map fun p => .waitCq (w.mem p).gdsWaitInfo)
    (h₂ : (w₂.streams s).todo = (w.streams s).todo ++
      ps.flatMap fun p => [.send (w.mem p).gdsSendInfo, .waitCq (w.mem p).gdsWaitInfo]) :
    sendInfos (w₁.streams s).todo = (sendInfos (w.streams s).todo ++ ps.map fun p => (w.mem p).gdsSendInfo) ∧
    sendInfos (w₁.streams s).todo = sendInfos (w₂.streams s).todo ∧
    waitInfos (w₁.streams s).todo = waitInfos (w₂.streams s).todo := by
  have hpairs := infos_pairs w ps
  rw [h₁, h₂]
  simp only [sendInfos_append, waitInfos_append, sendInfos_sends, waitInfos_sends, sendInfos_waits, waitInfos_waits,
    hpairs, List.append_nil, and_self]

/-- `mp_send_post_all_on_stream` leaves the status of its requests as it is, so
it is the same as single posts only where there is nothing to post. -/
theorem sendPosts_agree_iff (he : cfg.useEventSync = false) {ps : List Ptr} (s : Stream) {w : World}
    {tape₁ tape₂ : List Ans} (hnd : ps.Nodup) (hps : ∀ p ∈ ps, PreparedReq cfg w p) (h₁ : Succeeds tape₁)
    (h₂ : Succeeds tape₂) : PostsAgree cfg (mpSendPostAllOnStream cfg ps s)
      (fun p => mpSendPostOnStream cfg p s) w tape₁ tape₂ ps s ↔ ps = [] := by
  obtain ⟨w₁, t₁, hr₁, hm₁, hq₁⟩ := mpSendPostAllOnStream_run he s hps h₁
  obtain ⟨w₂, t₂, hr₂, hm₂, hq₂⟩ := postEach_run (mpSendPost_posts he s) ps hnd hps h₂
  unfold PostsAgree
  rw [hr₁, hr₂]
  constructor
  · rintro ⟨-, -, hsame⟩
    refine List.eq_nil_iff_forall_not_mem.mpr fun p hp => ?_
    have hst : (w₁.mem p).status = (w₂.mem p).status := hsame.status p
    rw [hm₁, hm₂, if_pos hp, (hps p hp).status] at hst
    cases hst
  · intro hnil
    obtain ⟨h1, h2, h3⟩ := sendPosts_infos hq₁ hq₂
    refine ⟨rfl, rfl, ⟨fun p => ?_, h1, h2, h3, ?_⟩⟩
    · show (w₁.mem p).status = (w₂.mem p).status
      rw [hm₁, hm₂, if_neg (by simp [hnil])]
    · intro p hp
      rw [hnil] at hp
      cases hp

/-- The batched posts against single posts, in any world and for any distinct
prepared requests, all calls succeeding: the non-blocking ones agree, the
blocking ones agree exactly when there is nothing to post. -/
theorem batched_posts_agree (he : cfg.useEventSync = false) (ps : List Ptr) (s : Stream) (w : World)
    (tape₁ tape₂ : List Ans) (hnd : ps.Nodup) (hps : ∀ p ∈ ps, PreparedReq cfg w p) (h₁ : Succeeds tape₁)
    (h₂ : Succeeds tape₂) :
    PostsAgree cfg (mpIsendPostAllOnStream cfg ps s) (fun p => mpIsendPostOnStream cfg p s) w tape₁ tape₂ ps s ∧
    (PostsAgree cfg (mpSendPostAllOnStream cfg ps s) (fun p => mpSendPostOnStream cfg p s) w tape₁ tape₂ ps s ↔
      ps = []) :=
  ⟨isendPosts_agree he s hnd hps h₁ h₂, sendPosts_agree_iff he s hnd hps h₁ h₂⟩

/-- A prepared send to rank 1. -/
def prepareOne : Event := .call (.sendPrepare 0 8 1 ⟨0⟩) []

/-- Three prepared sends, in the order in which they are posted. -/
theorem batched_posts_agree_of_sends :
    PostsAgree onePeer (mpIsendPostAllOnStream onePeer [1, 2, 0] 0) (fun p => mpIsendPostOnStream onePeer p 0)
      (World.init.after onePeer [prepareOne, prepareOne, prepareOne]) [] [] [1, 2, 0] 0 ∧
    ¬ PostsAgree onePeer (mpSendPostAllOnStream onePeer [1, 2, 0] 0) (fun p => mpSendPostOnStream onePeer p 0)
      (World.init.after onePeer [prepareOne, prepareOne, prepareOne]) [] [] [1, 2, 0] 0 := by
  have hps : ∀ p ∈ [1, 2, 0],
      PreparedReq onePeer (World.init.after onePeer [prepareOne, prepareOne, prepareOne]) p := by
    intro p hp
    simp only [List.mem_cons, List.not_mem_nil, or_false] at hp
    rcases hp with rfl | rfl | rfl <;> exact ⟨by decide, .inl (by decide), 0, by decide⟩
  obtain ⟨h1, h2⟩ := batched_posts_agree rfl [1, 2, 0] 0 _ [] [] (by decide) hps nofun nofun
  exact ⟨h1, fun h => absurd (h2.mp h) (by decide)⟩

/-- A prepared send, posted by the batched call: the call returns 0 and the
request stays prepared, where a single post makes it pending; its completion
then ends the process. -/
theorem batched_post_leaves_prepared :
    ∃ w, w = World.init.after onePeer [prepareOne] ∧ PreparedReq onePeer w 0 ∧
      ((Event.call (.sendPostAll [0] 0) []).exec onePeer w).1 = .ok (0, none) ∧
      (((Event.call (.sendPostAll [0] 0) []).exec onePeer w).2.mem 0).status = .prepared ∧
      ((Event.call (.sendPost 0 0) []).exec onePeer w).1 = .ok (0, none) ∧
      (((Event.call (.sendPost 0 0) []).exec onePeer w).2.mem 0).status = .pending ∧
      ((Event.call (.progress .tx) [{ picks := [0] }]).exec onePeer
        ((Event.call (.sendPostAll [0] 0) []).exec onePeer w).2).1 = .error .exitStatus := by
  refine ⟨_, rfl, ⟨by decide, .inl (by decide), 0, by decide⟩, ?_, by decide, ?_, by decide, ?_⟩ <;> rfl

end LibMp
