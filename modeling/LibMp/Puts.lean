import LibMp.Batch
import LibMp.Returns

/- Prepared puts, and puts on a stream.

   `mp_iput_post_all_on_stream` against single calls of
   `mp_iput_post_on_stream`: the infos reach the stream in the same order, but
   the batched call makes every put pending, also one that asks for no
   completion. Then the error paths of `mp_put_prepare` and
   `mp_iput_on_stream`: both put the request back on every error, also on one
   that comes after the work request was taken. -/
namespace LibMp
variable {cfg : Config}

/-! ## Posting prepared puts -/

/-- A request of `mp_put_prepare` that was not posted. -/
structure PreparedPut (w : World) (p : Ptr) : Prop where
  status : (w.mem p).status = .prepared
  owner : (w.mem p).owner = some .mpPutPrepare

/-- From `w`, the batched call has left `w₁` and the single calls have left
`w₂`: the same status for each request, and the send infos on the stream once
each, in the order of the list. -/
structure SamePuts (w w₁ w₂ : World) (ps : List Ptr) (s : Stream) : Prop where
  status : ∀ p ∈ ps, (w₁.mem p).status = (w₂.mem p).status
  sends : sendInfos (w₁.streams s).todo = sendInfos (w.streams s).todo ++ ps.map fun p => (w.mem p).gdsSendInfo
  same_sends : sendInfos (w₁.streams s).todo = sendInfos (w₂.streams s).todo

/-- Both ways of posting `ps` return 0 and leave the same. -/
def PutsAgree (w : World) (tape₁ tape₂ : List Ans) (ps : List Ptr) (s : Stream) : Prop :=
  (mpIputPostAllOnStream ps s ⟨w, tape₁⟩).1 = .ok 0 ∧
    (postEach (fun p => mpIputPostOnStream p s) ps ⟨w, tape₂⟩).1 = .ok 0 ∧
    SamePuts w (mpIputPostAllOnStream ps s ⟨w, tape₁⟩).2.w
      (postEach (fun p => mpIputPostOnStream p s) ps ⟨w, tape₂⟩).2.w ps s

/-- The status a posted put has: one that is not to be waited for is complete. -/
def putStatus (flags : Nat) : State := if nowait flags then .complete else .pendingNowait

theorem putStatus_eq_nowait {flags : Nat} : putStatus flags = .pendingNowait ↔ nowait flags = false := by
  unfold putStatus
  cases nowait flags <;> simp

theorem mpIputPost_does (s : Stream) : Does (fun r => r.status = .prepared) (fun p => mpIputPostOnStream p s) s
    (fun r => { r with status := putStatus r.flags }) (fun r => [.send r.gdsSendInfo]) where
  run p w tape hp ht := by
    have hst : decide ((w.mem p).status = .prepared) = true := by simp [hp]
    have hsend := gdsStreamPostSendAll_run ht s [(w.mem p).gdsSendInfo] w
    have hrun : mpIputPostOnStream p s ⟨w, tape⟩ = (.ok 0,
        ⟨((launchAll w [(w.mem p).gdsSendInfo]).enqueue s [.send (w.mem p).gdsSendInfo]).setStatus p
          (putStatus (w.mem p).flags), tape.tail⟩) := by
      rw [mpIputPostOnStream, Prog.bind_ok (request_run p w tape), Prog.bind_ok (require_run hst .assertStatus _),
        gdsStreamPostSend, Prog.bind_ok hsend, if_neg (by decide)]
      rfl
    refine ⟨_, _, hrun, ht.tail, ?_, ?_⟩
    · funext q
      simp only [World.setStatus, World.setReq_mem, World.enqueue_mem, launchAll_mem]
    · rw [World.setStatus, World.setReq_streams, World.enqueue_streams, if_pos rfl, launchAll_streams]

theorem mpIputPostAllOnStream_run (s : Stream) {ps : List Ptr} {w : World} {tape : List Ans} (hnd : ps.Nodup)
    (hps : ∀ p ∈ ps, (w.mem p).status = .prepared) (ht : Succeeds tape) :
    ∃ w' tape', mpIputPostAllOnStream ps s ⟨w, tape⟩ = (.ok 0, ⟨w', tape'⟩) ∧
      (∀ p ∈ ps, (w'.mem p).status = .pendingNowait) ∧
      (w'.streams s).todo = (w.streams s).todo ++ ps.map fun p => .send (w.mem p).gdsSendInfo := by
  obtain ⟨w₁, hrun, hm, hq⟩ := startAll_run none hnd hps tape
  have hall : mpIputPostAllOnStream ps s ⟨w, tape⟩ = (.ok 0,
      ⟨(launchAll w₁ (ps.map fun p => (w.mem p).gdsSendInfo)).enqueue s
        ((ps.map fun p => (w.mem p).gdsSendInfo).map .send), tape.tail⟩) := by
    rw [mpIputPostAllOnStream, Prog.bind_ok hrun]
    exact gdsStreamPostSendAll_run ht s _ w₁
  refine ⟨_, _, hall, fun p hp => ?_, ?_⟩
  · rw [World.enqueue_mem, launchAll_mem, hm, if_pos hp]
  · rw [World.enqueue_streams, if_pos rfl, launchAll_streams, hq]
    simp [Function.comp_def]

/-- The batched post of distinct prepared puts, all calls succeeding, is the
same as single posts exactly when every put is to be waited for. The number of
requests makes no difference. -/
theorem batched_puts_agree (ps : List Ptr) (s : Stream) (w : World) (tape₁ tape₂ : List Ans) (hnd : ps.Nodup)
    (hps : ∀ p ∈ ps, PreparedPut w p) (h₁ : Succeeds tape₁) (h₂ : Succeeds tape₂) :
    PutsAgree w tape₁ tape₂ ps s ↔ ∀ p ∈ ps, nowait (w.mem p).flags = false := by
  have hprep : ∀ p ∈ ps, (w.mem p).status = .prepared := fun p hp => (hps p hp).status
  obtain ⟨w₁, t₁, hr₁, hm₁, hq₁⟩ := mpIputPostAllOnStream_run s hnd hprep h₁
  obtain ⟨w₂, t₂, hr₂, hm₂, hq₂⟩ := (mpIputPost_does s).each ps hnd hprep h₂
  have hops : (ps.flatMap fun p => [StreamOp.send (w.mem p).gdsSendInfo]) =
      ps.map fun p => .send (w.mem p).gdsSendInfo := List.map_eq_flatMap.symm
  rw [hops] at hq₂
  have hst : ∀ p ∈ ps, ((w₁.mem p).status = (w₂.mem p).status ↔ nowait (w.mem p).flags = false) := by
    intro p hp
    rw [hm₁ p hp, hm₂ p, if_pos hp, eq_comm]
    exact putStatus_eq_nowait
  unfold PutsAgree
  rw [hr₁, hr₂]
  constructor
  · rintro ⟨-, -, hsame⟩ p hp
    exact (hst p hp).mp (hsame.status p hp)
  · intro hall
    refine ⟨rfl, rfl, ⟨fun p hp => (hst p hp).mpr (hall p hp), ?_, ?_⟩⟩
    · show sendInfos (w₁.streams s).todo = _
      rw [hq₁, sendInfos_append, sendInfos_sends]
    · show sendInfos (w₁.streams s).todo = sendInfos (w₂.streams s).todo
      rw [hq₁, hq₂]

/-- A window of 4096 bytes at every peer. -/
def wideWindow : Window := ⟨fun _ => 0, fun _ => 0, fun _ => 4096⟩

/-- A prepared put of 8 bytes to rank 1. -/
def putOne (flags : Nat) : Event := .call (.putPrepare 0 8 ⟨0⟩ 1 0 wideWindow flags) []

/-- Two puts that are to be waited for are in the scope of the comparison, and
so are two of which one is not. -/
theorem batched_puts_agree_of_puts :
    PutsAgree (World.init.after onePeer [putOne 0, putOne mpPutInline]) [] [] [1, 0] 0 ∧
    ¬ PutsAgree (World.init.after onePeer [putOne 0, putOne mpPutNowait]) [] [] [1, 0] 0 := by
  have hsucc : Succeeds [] := by simp [Succeeds]
  have hinline : ∀ p ∈ [1, 0], PreparedPut (World.init.after onePeer [putOne 0, putOne mpPutInline]) p := by
    have hst : ∀ p ∈ [1, 0], ((World.init.after onePeer [putOne 0, putOne mpPutInline]).mem p).status = .prepared := by
      decide
    have ho : ∀ p ∈ [1, 0],
        ((World.init.after onePeer [putOne 0, putOne mpPutInline]).mem p).owner = some .mpPutPrepare := by decide
    exact fun p hp => ⟨hst p hp, ho p hp⟩
  have hnowait : ∀ p ∈ [1, 0], PreparedPut (World.init.after onePeer [putOne 0, putOne mpPutNowait]) p := by
    have hst : ∀ p ∈ [1, 0], ((World.init.after onePeer [putOne 0, putOne mpPutNowait]).mem p).status = .prepared := by
      decide
    have ho : ∀ p ∈ [1, 0],
        ((World.init.after onePeer [putOne 0, putOne mpPutNowait]).mem p).owner = some .mpPutPrepare := by decide
    exact fun p hp => ⟨hst p hp, ho p hp⟩
  refine ⟨(batched_puts_agree [1, 0] 0 _ [] [] (by decide) hinline hsucc hsucc).mpr (by decide), fun h => ?_⟩
  have hall := (batched_puts_agree [1, 0] 0 _ [] [] (by decide) hnowait hsucc hsucc).mp h
  exact absurd (hall 1 (by decide)) (by decide)

/-- A put that is not to be waited for, posted by the batched call: it stays
pending with no completion to come, where a single post makes it complete. -/
theorem batched_put_stays_pending :
    ∃ w, w = World.init.after onePeer [putOne mpPutNowait] ∧ PreparedPut w 0 ∧
      ((Event.call (.iputPostAll [0] 0) []).exec onePeer w).1 = .ok (0, none) ∧
      (((Event.call (.iputPostAll [0] 0) []).exec onePeer w).2.mem 0).status = .pendingNowait ∧
      ((Event.call (.iputPostAll [0] 0) []).exec onePeer w).2.cq 0 .tx = [] ∧
      ((Event.call (.iputPost 0 0) []).exec onePeer w).1 = .ok (0, none) ∧
      (((Event.call (.iputPost 0 0) []).exec onePeer w).2.mem 0).status = .complete := by
  refine ⟨_, rfl, ⟨by decide, by decide⟩, ?_, by decide, by decide, ?_, by decide⟩ <;> rfl

/-! ## Puts that fail -/

/-- If the call returned an error and has put a request back, no work request
of that request was taken: neither by `gds_prepare_send` nor by
`gds_stream_queue_send`. -/
def CleanRelease (w : World) (r : Except Stop (Int × Option Ptr) × Sys) : Prop :=
  ∀ ret req p peer op, r.1 = .ok (ret, req) → ret ≠ 0 → .released p peer op ∈ newLog w r.2.w →
    ∀ c f op', .prepared c p op' ∉ newLog w r.2.w ∧ .accepted c f p op' ∉ newLog w r.2.w

/-- The text of the two calls: `send` queues the work request, `fin` ends a put
that is not to be waited for. -/
def putCall (cfg : Config) (fn : Fn) (st : State) (src : Nat) (size : Int) (reg : Reg) (peer displ : Nat)
    (win : Window) (flags : Nat) (send : Nat → Ptr → M Int) (fin : Ptr → M Int) : M (Int × Option Ptr) := do
  if cfg.enableUd then return (mpFailure, none)
  let c ← clientOf cfg peer
  Prog.require (displ < win.rsize c) .assertDispl
  let p ← newStreamRequest fn c (cfg.mpiRank c) .rdma st
  update fun w => w.buildPut c p src size reg displ win flags
  releaseOnError p do
    let ret ← send c p
    if ret ≠ 0 then return ret
    if nowait flags then fin p else gdsPrepareWaitCq c .tx p

/-- The event puts no request back and takes no work request of the request at `p`. -/
def LogEv.Quiet (p : Ptr) : LogEv → Prop
  | .released _ _ _ | .prepared _ _ _ => False
  | .accepted _ _ q _ => q ≠ p
  | _ => True

theorem LogEv.Quiet.notReleased {p : Ptr} {e : LogEv} (h : e.Quiet p) : e.NotReleased := by
  cases e <;> trivial

/-- Some work request of the request at `p` was taken from `w` to `w'`. -/
def Taken (p : Ptr) (w w' : World) : Prop :=
  ∃ c f op, .prepared c p op ∈ newLog w w' ∨ .accepted c f p op ∈ newLog w w'

theorem not_taken_of_quiet {p : Ptr} {w w' : World} (h : Adds (LogEv.Quiet p) w w') : ¬ Taken p w w' := by
  rintro ⟨c, f, op, hp | ha⟩
  · exact h.newLog _ hp
  · exact h.newLog _ ha rfl

/-- Queueing a work request went from `w` to `w'` and returned `ret`: the work
request of `p` was taken if that is 0, and nothing touched it otherwise. -/
def SendOutcome (p : Ptr) (ret : Int) (w w' : World) : Prop :=
  (ret = 0 ∧ Taken p w w' ∧ Adds LogEv.NotReleased w w') ∨ (ret ≠ 0 ∧ Adds (LogEv.Quiet p) w w')

theorem SendOutcome.after {p : Ptr} {ret : Int} {w₀ w₁ w₂ : World} (hq : Adds (LogEv.Quiet p) w₀ w₁)
    (h : SendOutcome p ret w₁ w₂) : SendOutcome p ret w₀ w₂ := by
  rcases h with ⟨h0, ⟨c, f, op, ht⟩, hnr⟩ | ⟨h0, hq'⟩
  · refine .inl ⟨h0, ⟨c, f, op, ?_⟩, (hq.mono fun _ h => h.notReleased).trans hnr⟩
    obtain ⟨l₁, e₁, -⟩ := hq
    obtain ⟨l₂, e₂, -⟩ := hnr
    have hnew : newLog w₁ w₂ = l₂ := by rw [newLog, e₂, List.drop_left]
    have hnew' : newLog w₀ w₂ = l₁ ++ l₂ := by rw [newLog, e₂, e₁, List.append_assoc, List.drop_left]
    rw [hnew] at ht
    rw [hnew']
    exact ht.imp (List.mem_append_right l₁) (List.mem_append_right l₁)
  · exact .inr ⟨h0, hq.trans hq'⟩

/-- The specification of a way to queue a work request. -/
def SendSpec (p : Ptr) (send : M Int) (s₀ : Sys) : Prop :=
  ∀ ret s', send s₀ = (.ok ret, s') → SendOutcome p ret s₀.w s'.w

/-- The call puts back a request whose work request was taken exactly if its
own part failed after taking it. -/
theorem releaseOnError_clean {p : Ptr} {m : M Int} {w : World} {tape : List Ans}
    (hm : ∀ ret s', m ⟨w, tape⟩ = (.ok ret, s') → Adds LogEv.NotReleased w s'.w) :
    CleanRelease w (releaseOnError p m ⟨w, tape⟩) ↔
      ∀ ret s', m ⟨w, tape⟩ = (.ok ret, s') → ret ≠ 0 → ¬ Taken p w s'.w := by
  cases hr : m ⟨w, tape⟩ with
  | mk r s' =>
    cases r with
    | error e =>
      -- an assertion stops the call: nothing is released
      constructor
      · intro _ ret s'' h
        cases h
      · intro _ ret req q peer op h
        rw [releaseOnError, Prog.bind_error hr] at h
        cases h
    | ok ret =>
      by_cases h0 : ret = 0
      · constructor
        · intro _ ret' s'' h hne
          cases h
          exact absurd h0 hne
        · intro _ ret' req q peer op h hne
          rw [releaseOnError, Prog.bind_ok hr, if_neg (by simp [h0])] at h
          cases h
          exact absurd rfl hne
      · have hrun : releaseOnError p m ⟨w, tape⟩ = (.ok (ret, none), { s' with w := s'.w.release p }) := by
          rw [releaseOnError, Prog.bind_ok hr, if_pos h0]
          rfl
        obtain ⟨l, hl, hnr⟩ := hm ret s' hr
        -- the release comes last, after what the body has logged
        have hnew : newLog w (s'.w.release p) = l ++ [.released p (s'.w.mem p).peer (s'.w.mem p).id] := by
          rw [newLog, World.release, hl, List.append_assoc, List.drop_left]
        have hold : newLog w s'.w = l := by rw [newLog, hl, List.drop_left]
        rw [hrun]
        constructor
        · intro hc ret' s'' h _
          cases h
          rintro ⟨c, f, op, ht⟩
          have hrel : .released p (s'.w.mem p).peer (s'.w.mem p).id ∈ newLog w (s'.w.release p) := by
            rw [hnew]
            exact List.mem_append_right l List.mem_cons_self
          have hboth := hc ret none p _ _ rfl h0 hrel c f op
          simp only [hnew, List.mem_append, not_or] at hboth
          rw [hold] at ht
          exact ht.elim hboth.1.1 hboth.2.1
        · intro hc ret' req q peer op _ _ hrel c f op'
          have hq : q = p := by
            rw [hnew, List.mem_append] at hrel
            rcases hrel with hrel | hrel
            · exact (hnr _ hrel).elim
            · simp only [List.mem_singleton, LogEv.released.injEq] at hrel
              exact hrel.1
          have hnt := hc ret s' rfl h0
          rw [hq, hnew]
          constructor
          · intro h
            refine hnt ⟨c, f, op', .inl ?_⟩
            rw [hold]
            simpa using h
          · intro h
            refine hnt ⟨c, f, op', .inr ?_⟩
            rw [hold]
            simpa using h

/-! ## The two calls -/

section PutCalls
variable (cfg : Config) (src : Nat) (size : Int) (reg : Reg) (peer displ : Nat) (win : Window) (flags : Nat)

theorem mpPutPrepare_eq : mpPutPrepare cfg src size reg peer displ win flags =
    putCall cfg .mpPutPrepare .prepared src size reg peer displ win flags gdsPrepareSend (fun _ => pure 0) := rfl

theorem mpIputOnStream_eq (s : Stream) : mpIputOnStream cfg src size reg peer displ win flags s =
    putCall cfg .mpIputOnStream .pendingNowait src size reg peer displ win flags (mpPostSendOnStream cfg s) (fun p => do
      update fun w => w.setStatus p .complete
      return 0) := rfl

/-- The call gets as far as taking a request for the client `c`. -/
def TakesFor (w : World) (c : Nat) : Prop :=
  cfg.enableUd = false ∧ cfg.clientIndex peer = some c ∧ displ < win.rsize c ∧ (w.clients c).lastReqId < uintMax

/-- The request is taken and filled in. -/
def World.startPut (w : World) (fn : Fn) (st : State) (c : Nat) : World :=
  (w.take fn c (cfg.mpiRank c) .rdma st).buildPut c w.nextFree src size reg displ win flags

/-- The call queues its work request, then prepares the wait, and that fails. -/
def WaitPrepFails (w : World) (tape : List Ans) (fn : Fn) (st : State) (send : Nat → Ptr → M Int) : Prop :=
  nowait flags = false ∧ ∃ c s', TakesFor cfg peer displ win w c ∧
    send c w.nextFree ⟨w.startPut cfg src size reg displ win flags fn st c, tape⟩ = (.ok 0, s') ∧ rcOf s'.tape ≠ 0

end PutCalls

section PutCalls
variable {src : Nat} {size : Int} {reg : Reg} {peer displ : Nat} {win : Window} {flags : Nat} {fn : Fn} {st : State}
  {send : Nat → Ptr → M Int} {fin : Ptr → M Int} {w : World} {tape : List Ans}

theorem putCall_takes {c : Nat} (h : TakesFor cfg peer displ win w c) :
    putCall cfg fn st src size reg peer displ win flags send fin ⟨w, tape⟩ =
      releaseOnError w.nextFree (do
        let ret ← send c w.nextFree
        if ret ≠ 0 then return ret
        if nowait flags then fin w.nextFree else gdsPrepareWaitCq c .tx w.nextFree)
        ⟨w.startPut cfg src size reg displ win flags fn st c, tape⟩ := by
  obtain ⟨hud, hc, hd, hid⟩ := h
  have hdec : decide (displ < win.rsize c) = true := by simp [hd]
  have hnew : newStreamRequest fn c (cfg.mpiRank c) .rdma st ⟨w, tape⟩ =
      (.ok w.nextFree, ⟨w.take fn c (cfg.mpiRank c) .rdma st, tape⟩) := by
    rcases newStreamRequest_run fn c (cfg.mpiRank c) .rdma st ⟨w, tape⟩ with ⟨-, h⟩ | ⟨hge, -⟩
    · exact h
    · exact absurd hid hge
  rw [putCall, if_neg (by simp [hud]), Prog.bind_ok (clientOf_run hc _), Prog.bind_ok (require_run hdec .assertDispl _),
    Prog.bind_ok hnew, Prog.bind_ok (update_run _ _ _)]
  rfl

/-- A call that takes no request adds nothing to the log, if it comes back. -/
theorem putCall_refused (h : ∀ c, ¬ TakesFor cfg peer displ win w c) {ret : Int} {req : Option Ptr} {s' : Sys}
    (hr : putCall cfg fn st src size reg peer displ win flags send fin ⟨w, tape⟩ = (.ok (ret, req), s')) :
    s'.w.log = w.log := by
  unfold putCall at hr
  split at hr
  · cases hr
    rfl
  · rename_i hud
    obtain ⟨c, hc, hr⟩ := clientOf_bind_ok hr
    obtain ⟨hd, hr⟩ := require_bind_ok hr
    obtain ⟨p, s₃, h₃, hr⟩ := Prog.bind_eq_ok hr
    rcases newStreamRequest_run fn c (cfg.mpiRank c) .rdma st ⟨w, tape⟩ with ⟨hid, -⟩ | ⟨-, s'', h₃'⟩
    · exact absurd ⟨by simpa using hud, hc, of_decide_eq_true hd, hid⟩ (h c)
    · rw [h₃'] at h₃
      cases h₃

theorem gdsPrepareWaitCq_eq (c : Nat) (f : Flow) (p : Ptr) (w : World) (tape : List Ans) :
    gdsPrepareWaitCq c f p ⟨w, tape⟩ =
      (.ok (rcOf tape), ⟨if rcOf tape = 0 then w.fillWait c f p else w, tape.tail⟩) := by
  rw [gdsPrepareWaitCq, Prog.bind_ok (returnCode_eq w tape)]
  split <;> rfl

/-- How the part of a put that may fail comes back. -/
theorem putBody_ok {p : Ptr} {c : Nat} {s₀ s' : Sys} {ret : Int} (hsend : SendSpec p (send c p) s₀)
    (hfin : ∀ p s, ∃ s', fin p s = (.ok 0, s') ∧ s'.w.log = s.w.log)
    (hr : (do
      let ret ← send c p
      if ret ≠ 0 then return ret
      if nowait flags then fin p else gdsPrepareWaitCq c .tx p) s₀ = (.ok ret, s')) :
    (ret ≠ 0 ∧ Adds (LogEv.Quiet p) s₀.w s'.w) ∨
    ∃ s₁, send c p s₀ = (.ok 0, s₁) ∧ s'.w.log = s₁.w.log ∧ Adds LogEv.NotReleased s₀.w s₁.w ∧
      ret = if nowait flags then 0 else rcOf s₁.tape := by
  obtain ⟨r, s₁, h₁, hr⟩ := Prog.bind_eq_ok hr
  rcases hsend r s₁ h₁ with ⟨rfl, -, hnr⟩ | ⟨hne, hq⟩
  · right
    rw [if_neg (by decide)] at hr
    refine ⟨s₁, h₁, ?_⟩
    cases hn : nowait flags with
    | true =>
      rw [hn, if_pos rfl] at hr
      obtain ⟨s₂, hf, hl⟩ := hfin p s₁
      rw [hf] at hr
      cases hr
      exact ⟨hl, hnr, rfl⟩
    | false =>
      rw [hn, if_neg (by decide), gdsPrepareWaitCq_eq] at hr
      cases hr
      refine ⟨?_, hnr, rfl⟩
      split <;> rfl
  · left
    rw [if_pos hne] at hr
    cases hr
    exact ⟨hne, hq⟩

/-- The error path of a put: the request goes back with its work request taken
exactly if the wait could not be prepared. -/
theorem putCall_clean (hsend : ∀ c, TakesFor cfg peer displ win w c →
      SendSpec w.nextFree (send c w.nextFree) ⟨w.startPut cfg src size reg displ win flags fn st c, tape⟩)
    (hfin : ∀ p s, ∃ s', fin p s = (.ok 0, s') ∧ s'.w.log = s.w.log) :
    CleanRelease w (putCall cfg fn st src size reg peer displ win flags send fin ⟨w, tape⟩) ↔
      ¬ WaitPrepFails cfg src size reg peer displ win flags w tape fn st send := by
  by_cases htake : ∃ c, TakesFor cfg peer displ win w c
  · obtain ⟨c, hc⟩ := htake
    have hlog : (w.startPut cfg src size reg displ win flags fn st c).log = w.log :=
      World.take_log w fn c (cfg.mpiRank c) .rdma st
    have hclean : ∀ r, CleanRelease w r ↔ CleanRelease (w.startPut cfg src size reg displ win flags fn st c) r := by
      intro r
      simp only [CleanRelease, newLog, hlog]
    have huniq : ∀ d, TakesFor cfg peer displ win w d → d = c := by
      intro d hd
      exact Option.some.inj (hd.2.1.symm.trans hc.2.1)
    rw [putCall_takes hc, hclean, releaseOnError_clean]
    · constructor
      · rintro hc' ⟨hn, d, s₁, hd, h₁, hrc⟩
        obtain rfl := huniq d hd
        rcases hsend d hc 0 s₁ h₁ with ⟨-, ht, -⟩ | ⟨h0, -⟩
        · refine hc' (rcOf s₁.tape) ⟨s₁.w, s₁.tape.tail⟩ ?_ hrc ht
          rw [Prog.bind_ok h₁, if_neg (by decide), hn, if_neg (by decide), gdsPrepareWaitCq_eq, if_neg hrc]
        · exact absurd rfl h0
      · intro hno ret s' hr hne ht
        rcases putBody_ok (hsend c hc) hfin hr with ⟨-, hq⟩ | ⟨s₁, h₁, -, -, hret⟩
        · exact not_taken_of_quiet hq ht
        · cases hn : nowait flags with
          | true =>
            rw [hn, if_pos rfl] at hret
            exact hne hret
          | false =>
            rw [hn, if_neg (by decide)] at hret
            exact hno ⟨hn, c, s₁, hc, h₁, hret ▸ hne⟩
    · intro ret s' hr
      rcases putBody_ok (hsend c hc) hfin hr with ⟨-, hq⟩ | ⟨s₁, -, hl, hnr, -⟩
      · exact hq.mono (fun _ h => h.notReleased)
      · exact hnr.trans (Adds.of_log hl)
  · -- no request is taken, so none is put back
    constructor
    · rintro - ⟨-, c, s', hc, -⟩
      exact htake ⟨c, hc⟩
    · intro _ ret req p peer' op hr _ hrel
      cases hput : putCall cfg fn st src size reg peer displ win flags send fin ⟨w, tape⟩ with
      | mk r s' =>
        rw [hput] at hr hrel
        cases hr
        have hlog := putCall_refused (fun c hc => htake ⟨c, hc⟩) hput
        rw [newLog, hlog, List.drop_length] at hrel
        cases hrel

end PutCalls

/-! ## Queueing the work request -/

theorem gdsPrepareSend_spec (c : Nat) (p : Ptr) (s₀ : Sys) : SendSpec p (gdsPrepareSend c p) s₀ := by
  intro ret s' h
  rw [gdsPrepareSend, Prog.bind_ok (returnCode_eq s₀.w s₀.tape)] at h
  by_cases h0 : rcOf s₀.tape = 0
  · rw [if_pos h0] at h
    cases h
    have hlog : newLog s₀.w (s₀.w.fillSend c p) = [.prepared c p (s₀.w.mem p).id] := by
      rw [newLog]
      exact List.drop_left
    refine .inl ⟨h0, ⟨c, .tx, (s₀.w.mem p).id, .inl ?_⟩, [.prepared c p (s₀.w.mem p).id], rfl, ?_⟩
    · show _ ∈ newLog s₀.w (s₀.w.fillSend c p)
      rw [hlog]
      exact List.mem_cons_self
    · intro e he
      rw [List.mem_singleton.mp he]
      trivial
  · rw [if_neg h0] at h
    cases h
    exact .inr ⟨h0, Adds.refl⟩

/-- Progress puts no request back, and hands over prepared requests only. -/
theorem quiet_step {p : Ptr} {l : Lbl} {a b : Mach} (hl : l.Progress) (hp : (a.w.mem p).status ≠ .prepared)
    (hs : Step cfg (fun _ => True) l a b) :
    Adds (LogEv.Quiet p) a.w b.w ∧ (b.w.mem p).status ≠ .prepared := by
  constructor
  · refine ⟨l.log a, step_log hs, ?_⟩
    cases hs with
    | reap =>
      intro e he
      obtain ⟨wr, -, rfl⟩ := mem_log_reap he
      trivial
    | @handOver w cur c f q _ _ _ hst =>
      intro e he
      -- what is handed over was prepared, and `p` is not
      have hne : q ≠ p := fun h => hp (h ▸ hst)
      simp only [Lbl.log, List.mem_cons, List.not_mem_nil, or_false] at he
      rcases he with rfl | rfl
      · exact hne
      · trivial
    | @gpu w cur s =>
      intro e he
      obtain ⟨op, rest, -, -, rfl⟩ := mem_log_gpu he
      trivial
    | store =>
      intro e he
      cases he
    | _ => exact hl.elim
  · cases step_req hs p with
    | same h => rw [h.2.2.2.1]; exact hp
    | reap _ _ _ _ h => rw [h]; decide
    | handOver _ _ h => rw [h]; decide
    | _ => exact hl.elim

theorem quiet_progress {p : Ptr} {f : Flow} {s s' : Sys} {ret : Int} (hp : (s.w.mem p).status ≠ .prepared)
    (h : mpProgressSingleFlow cfg f s = (.ok ret, s')) :
    Adds (LogEv.Quiet p) s.w s'.w ∧ (s'.w.mem p).status ≠ .prepared := by
  have hmoves := mpProgressSingleFlow_moves h
  refine Moves.inv (I := fun b => Adds (LogEv.Quiet p) s.w b.w ∧ (b.w.mem p).status ≠ .prepared) ?_ hmoves
    ⟨Adds.refl, hp⟩
  rintro a b ⟨hq, hst⟩ ⟨l, hl, hs⟩
  obtain ⟨hq', hst'⟩ := quiet_step hl hst hs
  exact ⟨hq.trans hq', hst'⟩

theorem gdsStreamQueueSend_eq (st : Stream) (c : Nat) (p : Ptr) (w : World) (tape : List Ans) :
    gdsStreamQueueSend st c p ⟨w, tape⟩ = (.ok (rcOf tape),
      ⟨if rcOf tape = 0 then (w.accept c .tx p).enqueue st [.queueSend p] else w, tape.tail⟩) := by
  rw [gdsStreamQueueSend, Prog.bind_ok (returnCode_eq w tape)]
  split <;> rfl

/-- A try that did not get `ENOMEM` is the last one. -/
theorem queueTry_outcome (st : Stream) (c : Nat) (p : Ptr) (w : World) (rc : Int) :
    SendOutcome p rc w (if rc = 0 then (w.accept c .tx p).enqueue st [.queueSend p] else w) := by
  by_cases h0 : rc = 0
  · rw [if_pos h0]
    have hlog : newLog w ((w.accept c .tx p).enqueue st [.queueSend p]) = [.accepted c .tx p (w.mem p).id] := by
      rw [newLog]
      exact List.drop_left
    refine .inl ⟨h0, ⟨c, .tx, (w.mem p).id, .inr ?_⟩, [.accepted c .tx p (w.mem p).id], rfl, ?_⟩
    · rw [hlog]
      exact List.mem_cons_self
    · intro e he
      rw [List.mem_singleton.mp he]
      trivial
  · rw [if_neg h0]
    exact .inr ⟨h0, Adds.refl⟩

/-- The retry loop: on `ENOMEM` it progresses and tries again, so what was
taken was taken by the last try. -/
theorem queueRetry_spec {p : Ptr} {c : Nat} {st : Stream} (fuel : Nat) {s₀ : Sys}
    (hp : (s₀.w.mem p).status ≠ .prepared) : SendSpec p (queueRetry cfg st c p fuel) s₀ := by
  induction fuel generalizing s₀ with
  | zero =>
    intro ret s' h
    cases h
  | succ fuel ih =>
    obtain ⟨w, tape⟩ := s₀
    intro ret s' h
    unfold queueRetry at h
    rw [Prog.bind_ok (gdsStreamQueueSend_eq st c p w tape)] at h
    by_cases hmem : rcOf tape = enomem
    · -- the queue is full: progress on both flows, then the next try
      rw [if_pos hmem, if_neg (show rcOf tape ≠ 0 by rw [hmem]; decide)] at h
      obtain ⟨r₁, s₁, h₁, h⟩ := Prog.bind_eq_ok h
      obtain ⟨hq₁, hp₁⟩ := quiet_progress (by exact hp) h₁
      by_cases hr₁ : r₁ = 0
      · rw [if_neg (by simp [hr₁])] at h
        obtain ⟨r₂, s₂, h₂, h⟩ := Prog.bind_eq_ok h
        obtain ⟨hq₂, hp₂⟩ := quiet_progress hp₁ h₂
        have hq := hq₁.trans hq₂
        by_cases hr₂ : r₂ = 0
        · rw [if_neg (by simp [hr₂])] at h
          obtain ⟨late, s₃, h₃, h⟩ := Prog.bind_eq_ok h
          have hw₃ := timeout_ok h₃
          split at h
          · obtain ⟨rc, s₄, h₄, h⟩ := Prog.bind_eq_ok h
            have hw₄ := (mpCheckGpuError_ok h₄).trans hw₃
            split at h
            · rename_i hrc
              cases h
              refine .inr ⟨hrc, ?_⟩
              rw [hw₄]
              exact hq
            · refine SendOutcome.after ?_ (ih (by rw [hw₄]; exact hp₂) ret s' h)
              rw [hw₄]
              exact hq
          · refine SendOutcome.after ?_ (ih (by rw [hw₃]; exact hp₂) ret s' h)
            rw [hw₃]
            exact hq
        · rw [if_pos hr₂] at h
          cases h
          exact .inr ⟨hr₂, hq⟩
      · rw [if_pos hr₁] at h
        cases h
        exact .inr ⟨hr₁, hq₁⟩
    · rw [if_neg hmem] at h
      cases h
      exact queueTry_outcome st c p w _

theorem World.startPut_status {w : World} {src : Nat} {size : Int} {reg : Reg} {displ : Nat} {win : Window}
    {flags : Nat} {fn : Fn} {st : State} {c : Nat} :
    ((w.startPut cfg src size reg displ win flags fn st c).mem w.nextFree).status = st := by
  simp [World.startPut, World.buildPut, World.take]

/-- `mp_put_prepare` and `mp_iput_on_stream`, in any world and whatever the
outside answers: a call that returns an error and has put its request back
has left no work request of it behind, exactly unless it failed to prepare the
wait after its work request was taken. -/
theorem failed_put_leaves_no_work (src : Nat) (size : Int) (reg : Reg) (peer displ : Nat) (win : Window) (flags : Nat)
    (s : Stream) (w : World) (tape : List Ans) :
    (CleanRelease w (mpPutPrepare cfg src size reg peer displ win flags ⟨w, tape⟩) ↔
      ¬ WaitPrepFails cfg src size reg peer displ win flags w tape .mpPutPrepare .prepared gdsPrepareSend) ∧
    (CleanRelease w (mpIputOnStream cfg src size reg peer displ win flags s ⟨w, tape⟩) ↔
      ¬ WaitPrepFails cfg src size reg peer displ win flags w tape .mpIputOnStream .pendingNowait
        (mpPostSendOnStream cfg s)) := by
  constructor
  · rw [mpPutPrepare_eq]
    exact putCall_clean (fun c _ => gdsPrepareSend_spec c _ _) (fun _ s₀ => ⟨s₀, rfl, rfl⟩)
  · rw [mpIputOnStream_eq]
    refine putCall_clean (fun c _ => ?_) (fun _ s₀ => ⟨_, rfl, rfl⟩)
    exact queueRetry_spec _ (by rw [World.startPut_status]; decide)

/-- The first call to the outside succeeds, the second one fails. -/
def secondFails : List Ans := [{}, { rc := einval }]

/-- A put whose wait cannot be prepared goes back to the pool with its work
request taken, in both calls. The next send takes the same request, and the
completion of the put ends the send, whose own completion is still to come. -/
theorem failed_put_leaves_work :
    ¬ CleanRelease World.init (mpPutPrepare onePeer 0 8 ⟨0⟩ 1 0 wideWindow 0 ⟨World.init, secondFails⟩) ∧
    ¬ CleanRelease World.init (mpIputOnStream onePeer 0 8 ⟨0⟩ 1 0 wideWindow 0 0 ⟨World.init, secondFails⟩) ∧
    ∃ w, w = World.init.after onePeer
        [.call (.iputOnStream 0 8 ⟨0⟩ 1 0 wideWindow 0 0) secondFails, sendOne, pollZero] ∧
      (w.mem 0).owner = some .mpIsend ∧ (w.mem 0).id = 2 ∧ (w.mem 0).status = .complete ∧ w.cq 0 .tx = [⟨0, 2⟩] := by
  refine ⟨fun h => ?_, fun h => ?_, _, rfl, by decide, by decide, by decide, by decide⟩
  · have hboth := h einval none 0 1 1 rfl (by decide) (by decide) 0 .tx 1
    exact hboth.1 (by decide)
  · have hboth := h einval none 0 1 1 rfl (by decide) (by decide) 0 .tx 1
    exact hboth.2 (by decide)

end LibMp
