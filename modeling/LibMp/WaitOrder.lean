import LibMp.StreamWaits
import LibMp.Tracked
import LibMp.Returns

/- What a stream wait promises, with event sync: the operations enqueued on the
   stream after it execute after the request it waited for is complete.

   A wait that enqueues nothing relies on one that stands on the stream already.
   The promise holds while each request waited for is guarded (`Guard`): on the
   stream stands a wait that no completion in front of the request's own can
   satisfy. A later wait that arms a request in front of it takes the guard
   away, and a wait that is left out for the sake of one on another stream has
   none. -/
namespace LibMp
variable {cfg : Config} {Good : Ans → Prop}

/-- No completion in front of that of the request at `p` ends some wait that
stands on stream `s`. -/
def World.GuardedOn (cfg : Config) (w : World) (c : Nat) (f : Flow) (p : Ptr) (s : Stream) : Prop :=
  ∃ v, .wait (.lastTrackedId c f) v .geq ∈ (w.streams s).todo ∧ (w.clients c).lastTrackedId f < v ∧
    ∀ q, w.Armed cfg q c f → v ≤ (w.mem q).id → q = p ∨ w.Ahead c f p q

/-- A stream wait has returned 0 for the operation of the request at `p`, which
is not complete. -/
def World.Waited (cfg : Config) (w : World) (c : Nat) (f : Flow) (p : Ptr) : Prop :=
  (w.mem p).owner ≠ none ∧ w.At cfg p c f ∧ (w.mem p).status ≠ .complete ∧
    ∃ s k, .waited c f p (w.mem p).id s k ∈ w.log

/-- A request is armed behind those waited for, and a wait that returns 0 finds
its request complete or guarded. -/
def waitsGuarded (cfg : Config) : Lbl → Mach → Prop
  | .arm c f p, a => a.cur = none ∧ ∀ q, a.w.Waited cfg c f q → q = p ∨ a.w.Ahead c f q p
  | .note c f p s, a => (a.w.mem p).owner ≠ none ∧ a.w.At cfg p c f ∧
    ((a.w.mem p).status = .complete ∨ a.w.InLine c f p ∧ a.w.GuardedOn cfg c f p s)
  | _, _ => True

/-- The wait that stands for operation `op` of the request at `p`, in front of
operation `k` of stream `s`. -/
structure Guard (cfg : Config) (a : Mach) (pl : Nat → List Ptr) (c : Nat) (f : Flow) (p : Ptr) (op : Nat) (s : Stream)
    (k i v : Nat) : Prop where
  in_line : p ∈ lineOf a.w pl c f
  id : (a.w.mem p).id = op
  wait : (a.w.streams s).todo[i]? = some (.wait (.lastTrackedId c f) v .geq)
  before : (a.w.streams s).done + i < k
  closed : (a.w.clients c).lastTrackedId f < v
  behind : ∀ q, a.w.Armed cfg q c f → v ≤ (a.w.mem q).id → q = p ∨ [p, q].Sublist (lineOf a.w pl c f)

/-- See the head of the file. -/
structure OrderInv (cfg : Config) (a : Mach) (pl : Nat → List Ptr) : Prop where
  base : WaitInv cfg a pl
  fresh : a.FreshCur
  polled : ∀ c f p, (a.w.mem p).owner ≠ none → a.w.At cfg p c f → (a.w.mem p).status = .complete →
    .polled c f p (a.w.mem p).id ∈ a.w.log
  guarded : ∀ c f p op s k, .waited c f p op s k ∈ a.w.log →
    .polled c f p op ∈ a.w.log ∨ ∃ i v, Guard cfg a pl c f p op s k i v
  ran_lt : ∀ s k o, .ran s k o ∈ a.w.log → k < (a.w.streams s).done
  order : ∀ c f p op s k k' o, .waited c f p op s k ∈ a.w.log → k ≤ k' →
    Precedes (.polled c f p op) (.ran s k' o) a.w.log

section Step
variable {a b : Mach} {l : Lbl} {fl : List Ptr} {pl : Nat → List Ptr} {c : Nat} {f : Flow} {p : Ptr} {op : Nat}
  {s : Stream} {k i v : Nat}

/-- Who stands in front of another in line stays there until its completion. -/
theorem ahead_keep (hc : Core cfg a fl pl) (hs : Step cfg inOrder l a b) {q : Ptr}
    (hpq : [p, q].Sublist (lineOf a.w pl c f)) (hst : (b.w.mem p).status ≠ .complete) :
    [p, q].Sublist (lineOf b.w (l.posted pl) c f) := by
  have hline := step_line hc hs c f
  cases l with
  | accept d g x =>
    dsimp only at hline
    rw [hline]
    split
    · exact sublist_insert x hpq
    · exact hpq
  | track d x s =>
    dsimp only at hline
    rw [hline]
    split
    · exact hpq.trans (List.sublist_append_left _ _)
    · exact hpq
  | reap d g k =>
    by_cases hcf : c = d ∧ f = g
    · obtain ⟨rfl, rfl⟩ := hcf
      obtain ⟨wr, hwr⟩ : ∃ wr, (a.w.cq c f)[k]? = some wr := by
        cases hs with
        | reap hwr => exact ⟨_, hwr⟩
      obtain ⟨hl, hcomp, -⟩ := reap_head hc hs hwr
      rw [hl] at hpq
      cases hpq with
      | cons _ hpq => exact hpq
      | cons_cons _ _ => exact absurd hcomp hst
    · rw [show lineOf b.w _ c f = lineOf a.w pl c f from hline.trans (if_neg hcf)]
      exact hpq
  | _ =>
    rw [show lineOf b.w _ c f = lineOf a.w pl c f from hline]
    exact hpq

/-- A wait on a stream stays where it is, or moves up, until it is over. -/
theorem wait_keep (hs : Step cfg inOrder l a b)
    (hw : (a.w.streams s).todo[i]? = some (.wait (.lastTrackedId c f) v .geq))
    (hk : (a.w.streams s).done + i < k) (hv : (a.w.clients c).lastTrackedId f < v) :
    ∃ j, (b.w.streams s).todo[j]? = some (.wait (.lastTrackedId c f) v .geq) ∧ (b.w.streams s).done + j < k := by
  rw [step_streams hs]
  cases l with
  | gpu t =>
    dsimp only
    rcases a.w.gpuStep_streams t s with hq | ⟨rfl, o, rest, hq, hr, hq'⟩
    · rw [hq]
      exact ⟨i, hw, hk⟩
    · rw [hq] at hw
      rw [hq']
      cases i with
      | zero =>
        -- the wait is not over, so it is not executed
        cases hw
        exact absurd (of_decide_eq_true hr) (Nat.not_le_of_lt hv)
      | succ j => exact ⟨j, hw, by dsimp only; omega⟩
  | enqueue t ops =>
    simp only [World.enqueue_streams]
    split
    · rename_i hst
      subst hst
      refine ⟨i, ?_, hk⟩
      dsimp only
      rw [List.getElem?_append_left (List.getElem?_eq_some_iff.mp hw).1]
      exact hw
    · exact ⟨i, hw, hk⟩
  | _ => exact ⟨i, hw, hk⟩

/-- What a completion in front of a guarded request leaves of the guard. -/
theorem Guard.closed_step (he : cfg.useEventSync = true) (hc : Core cfg a fl pl) (hn : a.w.NoTrackedWrites)
    (h : Guard cfg a pl c f p op s k i v) (hs : Step cfg inOrder l a b) (hst : (b.w.mem p).status ≠ .complete) :
    (b.w.clients c).lastTrackedId f < v := by
  rcases step_lastTrackedId he hn hs c f with ⟨heq, -⟩ | ⟨j, wr, rfl, hwr, ht, heq, -⟩
  · rw [heq]
    exact h.closed
  · obtain ⟨hline, hcomp, -⟩ := reap_head hc hs hwr
    rw [heq]
    by_contra hle
    have hhead : wr.wrId ∈ lineOf a.w pl c f := by rw [hline]; exact List.mem_cons_self
    rcases h.behind wr.wrId (hc.armed_of_line hhead ht) (Nat.not_lt.mp hle) with heq' | hsub
    · rw [heq'] at hcomp
      exact hst hcomp
    · have hnd := hc.line_nodup c f
      rw [hline] at hsub hnd
      cases hsub with
      | cons _ hsub =>
        exact (List.nodup_cons.mp hnd).1 (hsub.subset (List.mem_cons_of_mem _ List.mem_cons_self))
      | cons_cons _ hsub =>
        exact (List.nodup_cons.mp hnd).1 (hsub.subset List.mem_cons_self)

theorem Guard.behind_step (he : cfg.useEventSync = true) (hc : Core cfg a fl pl)
    (h : Guard cfg a pl c f p op s k i v) (hwaited : .waited c f p op s k ∈ a.w.log) (hk : waitsGuarded cfg l a)
    (hs : Step cfg inOrder l a b) (hst : (b.w.mem p).status ≠ .complete) {q : Ptr} (hq : b.w.Armed cfg q c f)
    (hv : v ≤ (b.w.mem q).id) : q = p ∨ [p, q].Sublist (lineOf b.w (l.posted pl) c f) := by
  obtain ⟨hid, hold⟩ := step_armed he hs hq
  rw [hid] at hv
  have hcase : q = p ∨ [p, q].Sublist (lineOf a.w pl c f) := by
    rcases hold with hold | rfl | ⟨rfl, rfl⟩
    · exact h.behind q hold hv
    · obtain ⟨ho, hat, -⟩ := hc.line_mem h.in_line
      have hwt : a.w.Waited cfg c f p :=
        ⟨ho, hat, hc.line_incomplete h.in_line, s, k, by rw [h.id]; exact hwaited⟩
      rcases hk.2 p hwt with heq | hahead
      · exact .inl heq.symm
      · exact .inr (hc.ahead_iff.mp hahead)
    · by_cases hne : q = p
      · exact .inl hne
      · cases hs with
        | armTail _ _ htail =>
          exact .inr (sublist_of_getLast? (hc.line_last htail) h.in_line (Ne.symm hne))
  rcases hcase with heq | hsub
  · exact .inl heq
  · exact .inr (ahead_keep hc hs hsub hst)

/-- A request becomes complete when its completion is polled. -/
theorem completed_step (hc : Core cfg a fl pl) (hs : Step cfg Good l a b) (ho : (a.w.mem p).owner ≠ none)
    (hat : a.w.At cfg p c f) (hinc : (a.w.mem p).status ≠ .complete) (hst : (b.w.mem p).status = .complete) :
    .polled c f p (a.w.mem p).id ∈ b.w.log := by
  cases step_req hs p with
  | same h => exact absurd (h.2.2.2.1 ▸ hst) hinc
  | take fn d hq =>
    cases hs
    rw [hq] at ho
    exact absurd (nextFree_free ⟨fl, pl, hc⟩).1 ho
  | release hst' => exact absurd hst' hinc
  | @reap d g j wr hj hid =>
    subst hid
    obtain ⟨rfl, rfl⟩ := (hc.cq_mem d g wr (List.mem_of_getElem? hj)).2.1.unique hat
    rw [step_log hs]
    apply List.mem_append_right
    simp only [Lbl.log, hj, List.mem_singleton]
  | handOver _ _ hst' | waitCpu _ _ hst' | waitStream _ _ hst' => rw [hst'] at hst; cases hst
  | arm h | armTail h => rw [h] at hst; exact absurd hst hinc

/-- A guarded request stays guarded until its completion is polled. -/
theorem Guard.step (he : cfg.useEventSync = true) (hc : Core cfg a fl pl) (hn : a.w.NoTrackedWrites)
    (h : Guard cfg a pl c f p op s k i v) (hwaited : .waited c f p op s k ∈ a.w.log) (hk : waitsGuarded cfg l a)
    (hs : Step cfg inOrder l a b) :
    .polled c f p op ∈ b.w.log ∨ ∃ j u, Guard cfg b (l.posted pl) c f p op s k j u := by
  obtain ⟨ho, hat, -⟩ := hc.line_mem h.in_line
  have hinc := hc.line_incomplete h.in_line
  have hsame : (b.w.mem p).id = (a.w.mem p).id := by
    rcases step_held ⟨fl, pl, hc⟩ hs ho with rfl | ⟨-, -, hid, -⟩
    · cases hs with
      | release hst => exact absurd hst hinc
    · exact hid
  by_cases hst : (b.w.mem p).status = .complete
  · refine .inl ?_
    rw [← h.id]
    exact completed_step hc hs ho hat hinc hst
  · obtain ⟨j, hw, hkj⟩ := wait_keep hs h.wait h.before h.closed
    exact .inr ⟨j, v, line_keep hc hs h.in_line hst, hsame.trans h.id, hw, hkj, h.closed_step he hc hn hs hst,
      fun q hq hv => h.behind_step he hc hwaited hk hs hst hq hv⟩

theorem OrderInv.polled_step (hc : Core cfg a fl pl) (h : OrderInv cfg a pl) (hs : Step cfg inOrder l a b)
    (ho : (b.w.mem p).owner ≠ none) (hat : b.w.At cfg p c f) (hst : (b.w.mem p).status = .complete) :
    .polled c f p (b.w.mem p).id ∈ b.w.log := by
  by_cases hoa : (a.w.mem p).owner = none
  · -- a request just taken is not complete
    obtain ⟨fn, d, -, -, -, hst'⟩ := step_fresh hs hoa ho
    rw [hst] at hst'
    rcases hst' with hst' | hst'
    · cases hst'
    · exact hst'.elim
  · rcases step_held ⟨fl, pl, hc⟩ hs hoa with rfl | ⟨h1, h2, h3, -⟩
    · cases hs
      simp [World.release] at ho
    · rw [World.At, h1, h2] at hat
      rw [h3]
      by_cases hsa : (a.w.mem p).status = .complete
      · rw [step_log hs]
        exact List.mem_append_left _ (h.polled c f p hoa hat hsa)
      · exact completed_step hc hs hoa hat hsa hst

/-- The step that notes a wait. -/
theorem waited_step (hs : Step cfg Good l a b) (h : .waited c f p op s k ∈ b.w.log) :
    .waited c f p op s k ∈ a.w.log ∨ l = .note c f p s ∧ op = (a.w.mem p).id ∧ k = (a.w.streams s).count := by
  rw [step_log hs] at h
  rcases List.mem_append.mp h with hold | hnew
  · exact .inl hold
  · refine .inr ?_
    cases l with
    | note d g q t =>
      simp only [Lbl.log, List.mem_singleton] at hnew
      cases hnew
      exact ⟨rfl, rfl, rfl⟩
    | gpu t =>
      obtain ⟨o, rest, -, -, he⟩ := mem_log_gpu hnew
      cases he
    | reap d g j =>
      obtain ⟨wr, -, he⟩ := mem_log_reap hnew
      cases he
    | _ => simp [Lbl.log] at hnew

/-- The step that executes an operation. -/
theorem ran_of_step {o : StreamOp} (h : .ran s k o ∈ l.log a) :
    l = .gpu s ∧ k = (a.w.streams s).done ∧ ∃ rest, (a.w.streams s).todo = o :: rest ∧ a.w.ready o = true := by
  cases l with
  | gpu t =>
    obtain ⟨o', rest, hq, hr, he⟩ := mem_log_gpu h
    cases he
    exact ⟨rfl, rfl, rest, hq, hr⟩
  | reap d g j =>
    obtain ⟨wr, -, he⟩ := mem_log_reap h
    cases he
  | _ => simp [Lbl.log] at h

theorem OrderInv.guarded_step (he : cfg.useEventSync = true) (hc : Core cfg a fl pl) (h : OrderInv cfg a pl)
    (hk : waitsGuarded cfg l a) (hs : Step cfg inOrder l a b) (hw : .waited c f p op s k ∈ b.w.log) :
    .polled c f p op ∈ b.w.log ∨ ∃ i v, Guard cfg b (l.posted pl) c f p op s k i v := by
  rcases waited_step hs hw with hold | ⟨rfl, rfl, rfl⟩
  · rcases h.guarded c f p op s k hold with hp | ⟨i, v, hg⟩
    · rw [step_log hs]
      exact .inl (List.mem_append_left _ hp)
    · exact hg.step he hc h.base.ids.no_writes hold hk hs
  · obtain ⟨ho, hat, hcomp | ⟨hin, v, hv, hlt, hbehind⟩⟩ := hk
    · rw [step_log hs]
      exact .inl (List.mem_append_left _ (h.polled c f p ho hat hcomp))
    · cases hs
      obtain ⟨i, hi, hget⟩ := List.getElem_of_mem hv
      refine .inr ⟨i, v, hc.inLine_iff.mp hin, rfl, ?_, Nat.add_lt_add_left hi _, hlt, fun q hq hle => ?_⟩
      · exact List.getElem?_eq_some_iff.mpr ⟨hi, hget⟩
      · rcases hbehind q ⟨hq.owner, hq.at_, hq.trigger, hq.status⟩ hle with heq | hahead
        · exact .inl heq
        · exact .inr (hc.ahead_iff.mp hahead)

theorem OrderInv.ran_lt_step (h : OrderInv cfg a pl) (hs : Step cfg inOrder l a b) {o : StreamOp}
    (hr : .ran s k o ∈ b.w.log) : k < (b.w.streams s).done := by
  have hmono : (a.w.streams s).done ≤ (b.w.streams s).done := by
    rw [step_streams hs]
    cases l with
    | gpu t =>
      dsimp only
      rcases a.w.gpuStep_streams t s with hq | ⟨rfl, o', rest, -, -, hq'⟩
      · rw [hq]
      · rw [hq']
        exact Nat.le_succ _
    | enqueue t ops => simp only [World.enqueue_streams]; split <;> simp_all
    | _ => exact le_rfl
  rw [step_log hs] at hr
  rcases List.mem_append.mp hr with hold | hnew
  · exact Nat.lt_of_lt_of_le (h.ran_lt s k o hold) hmono
  · obtain ⟨rfl, rfl, rest, hq, hready⟩ := ran_of_step hnew
    have hstep : (a.w.gpuStep s).streams s = ⟨(a.w.streams s).done + 1, rest⟩ := by
      unfold World.gpuStep
      rw [hq]
      simp [hready, World.effect_streams, World.shift, hq]
    rw [step_streams hs]
    dsimp only
    rw [hstep]
    exact Nat.lt_succ_self _

theorem OrderInv.order_step (h : OrderInv cfg a pl) (hs : Step cfg inOrder l a b) {m : Nat} {o : StreamOp}
    (hw : .waited c f p op s k ∈ b.w.log) (hkm : k ≤ m) : Precedes (.polled c f p op) (.ran s m o) b.w.log := by
  rcases waited_step hs hw with hold | ⟨rfl, rfl, rfl⟩
  · rw [step_log hs]
    refine (h.order c f p op s k m o hold hkm).append fun hnew => ?_
    obtain ⟨rfl, rfl, -⟩ := ran_of_step hnew
    rcases h.guarded c f p op s k hold with hp | ⟨i, v, hg⟩
    · exact hp
    · have := hg.before
      omega
  · -- nothing has run on the stream beyond what was enqueued
    apply Precedes.of_not_mem
    intro hr
    have := h.ran_lt_step hs hr
    cases hs
    unfold Queue.count at hkm
    simp only [World.addLog_streams] at this hkm
    omega

theorem OrderInv.step (he : cfg.useEventSync = true) (hc : Core cfg a fl pl) (h : OrderInv cfg a pl)
    (hsig : armsSignaled l a) (hk : waitsGuarded cfg l a) (hs : Step cfg inOrder l a b) :
    OrderInv cfg b (l.posted pl) where
  base := h.base.step he hc hsig hs
  fresh := h.fresh.step hc hs (by rintro c f p rfl; exact hk.1)
  polled _ _ _ ho hat hst := h.polled_step hc hs ho hat hst
  guarded _ _ _ _ _ _ hw := h.guarded_step he hc hk hs hw
  ran_lt _ _ _ hr := h.ran_lt_step hs hr
  order _ _ _ _ _ _ _ _ hw hkm := h.order_step hs hw hkm

end Step

/-! ## What the waits leave -/

/-- A stream wait for `ps` has armed requests of `w`, which gives `w'`, and has
the waits `ops` to enqueue. -/
structure WaitsOn (cfg : Config) (w w' : World) (ps : List Ptr) (ops : List StreamOp) : Prop where
  arms : w.OnlyArms w'
  armed : ∀ q c f, w'.Armed cfg q c f → w.Armed cfg q c f ∨ q ∈ waitsArm cfg w ps
  waits : ∀ q ∈ waitsArm cfg w ps, ∀ c f, w.At cfg q c f → .wait (.lastTrackedId c f) (w.mem q).id .geq ∈ ops
  known : ∀ p ∈ ps, ∃ c, cfg.clientIndex (w.mem p).peer = some c ∧ (w.mem p).type ≠ .null

namespace WaitsOn
variable {w w' : World} {p : Ptr} {ps : List Ptr} {ops : List StreamOp} {c : Nat}

theorem nil (w : World) : WaitsOn cfg w w [] [] where
  arms := .refl w
  armed _ _ _ h := .inl h
  waits _ hq := absurd hq List.not_mem_nil
  known _ hp := absurd hp List.not_mem_nil

theorem complete (hc : cfg.clientIndex (w.mem p).peer = some c) (hty : (w.mem p).type ≠ .null)
    (hst : (w.mem p).status = .complete) : WaitsOn cfg w w [p] [] where
  arms := .refl w
  armed _ _ _ h := .inl h
  waits q hq := by simp [waitsArm, hc, hst] at hq
  known q hq := by
    obtain rfl := List.mem_singleton.mp hq
    exact ⟨c, hc, hty⟩

/-- A request that the wait arms. -/
theorem arm (hc : cfg.clientIndex (w.mem p).peer = some c) (hty : (w.mem p).type ≠ .null)
    (hst : (w.mem p).status ≠ .complete) (hlt : (w.clients c).lastPostedTrackedId (w.mem p).type.flow < (w.mem p).id)
    (h : WaitsOn cfg (w.arm c (w.mem p).type.flow p) w' ps ops) :
    WaitsOn cfg w w' (p :: ps) (.wait (.lastTrackedId c (w.mem p).type.flow) (w.mem p).id .geq :: ops) := by
  have harm := World.OnlyArms.arm w c (w.mem p).type.flow p
  have hlist : waitsArm cfg w (p :: ps) = p :: waitsArm cfg (w.arm c (w.mem p).type.flow p) ps := by
    simp [waitsArm, hc, hst, hlt]
  refine ⟨harm.trans h.arms, fun q d g hq => ?_, fun q hq d g hat => ?_, fun q hq => ?_⟩
  · rw [hlist]
    rcases h.armed q d g hq with hold | hnew
    · by_cases hqp : q = p
      · exact .inr (by rw [hqp]; exact List.mem_cons_self)
      · obtain ⟨h1, h2, h3, h4⟩ := hold
        have hm : (w.arm c (w.mem p).type.flow p).mem q = w.mem q := by simp [World.arm, hqp]
        rw [hm] at h1 h3 h4
        exact .inl ⟨h1, harm.at_iff.mp h2, h3, h4⟩
    · exact .inr (List.mem_cons_of_mem p hnew)
  · rw [hlist] at hq
    rcases List.mem_cons.mp hq with rfl | hq
    · obtain ⟨rfl, rfl⟩ := hat.unique ⟨hc, hty, rfl⟩
      exact List.mem_cons_self
    · have hid := (harm.state q).2.2.1
      rw [← hid]
      exact List.mem_cons_of_mem _ (h.waits q hq d g (harm.at_iff.mpr hat))
  · rcases List.mem_cons.mp hq with rfl | hq
    · exact ⟨c, hc, hty⟩
    · obtain ⟨h1, h2, -⟩ := harm.state q
      rw [← h1, ← h2]
      exact h.known q hq

/-- A request that the wait leaves out. -/
theorem skip (hc : cfg.clientIndex (w.mem p).peer = some c) (hty : (w.mem p).type ≠ .null)
    (hst : (w.mem p).status ≠ .complete)
    (hlt : ¬ (w.clients c).lastPostedTrackedId (w.mem p).type.flow < (w.mem p).id) (h : WaitsOn cfg w w' ps ops) :
    WaitsOn cfg w w' (p :: ps) ops := by
  have hlist : waitsArm cfg w (p :: ps) = waitsArm cfg w ps := by simp [waitsArm, hc, hst, hlt]
  refine ⟨h.arms, by rw [hlist]; exact h.armed, by rw [hlist]; exact h.waits, fun q hq => ?_⟩
  rcases List.mem_cons.mp hq with rfl | hq
  · exact ⟨c, hc, hty⟩
  · exact h.known q hq

end WaitsOn

theorem mpWaitOnStream_ok (he : cfg.useEventSync = true) {p : Ptr} {st : Stream} {s s' : Sys}
    (h : mpWaitOnStream cfg p st s = (.ok 0, s')) :
    ∃ w ops, WaitsOn cfg s.w w [p] ops ∧ s'.w = w.enqueue st ops := by
  unfold mpWaitOnStream at h
  obtain ⟨r, s₁, h₁, h⟩ := Prog.bind_eq_ok h
  obtain ⟨rfl, rfl⟩ := request_ok h₁
  obtain ⟨c, hc, h⟩ := clientOf_bind_ok h
  obtain ⟨hty, h⟩ := require_bind_ok h
  have hty := of_decide_eq_true hty
  rw [if_pos he] at h
  split at h
  · rename_i hst
    cases h
    exact ⟨_, [], .complete hc hty hst, (World.enqueue_nil _ _).symm⟩
  · rename_i hst
    obtain ⟨cl, s₄, h₄, h⟩ := Prog.bind_eq_ok h
    obtain ⟨rfl, rfl⟩ := client_ok h₄
    split at h
    · rename_i hlt
      obtain ⟨u', s₅, h₅, h⟩ := Prog.bind_eq_ok h
      have hs₅ := update_ok h₅
      obtain ⟨s₆, h₆, h⟩ := Prog.andThen_ok h
      have hd := gdsStreamPostDescriptors_ok h
      rw [returnCode_ok h₆, hs₅] at hd
      exact ⟨_, _, .arm hc hty hst hlt (.nil _), hd⟩
    · rename_i hlt
      cases h
      exact ⟨_, [], .skip hc hty hst hlt (.nil _), (World.enqueue_nil _ _).symm⟩

theorem blockOnCompletion_ok {c : Nat} {f : Flow} {p : Ptr} {descs x : List StreamOp} {ret : Int} {s s' : Sys}
    (h : blockOnCompletion c f p descs s = (.ok (ret, x), s')) :
    (s.w.clients c).lastPostedTrackedId f < (s.w.mem p).id ∧ s'.w = s.w.arm c f p ∧
        x = descs ++ [.wait (.lastTrackedId c (s.w.mem p).type.flow) (s.w.mem p).id .geq] ∨
      ¬ (s.w.clients c).lastPostedTrackedId f < (s.w.mem p).id ∧ s'.w = s.w ∧ x = descs := by
  obtain ⟨cl, s₁, h₁, h⟩ := Prog.bind_eq_ok h
  obtain ⟨rfl, rfl⟩ := client_ok h₁
  obtain ⟨r, s₂, h₂, h⟩ := Prog.bind_eq_ok h
  obtain ⟨rfl, rfl⟩ := request_ok h₂
  split at h
  · rename_i hlt
    obtain ⟨u, s₃, h₃, h⟩ := Prog.bind_eq_ok h
    obtain ⟨rc, s₄, h₄, h⟩ := Prog.bind_eq_ok h
    have hw := returnCode_ok h₄
    rw [update_ok h₃] at hw
    cases h
    exact .inl ⟨hlt, hw, rfl⟩
  · rename_i hlt
    cases h
    exact .inr ⟨hlt, rfl, rfl⟩

theorem waitAllEvent_ok {ps : List Ptr} {descs x : List StreamOp} {s s' : Sys}
    (h : waitAllEvent cfg ps descs s = (.ok (0, x), s')) :
    ∃ ops, WaitsOn cfg s.w s'.w ps ops ∧ x = descs ++ ops := by
  induction ps generalizing descs s with
  | nil =>
    cases h
    exact ⟨[], .nil _, (List.append_nil _).symm⟩
  | cons p rest ih =>
    unfold waitAllEvent at h
    obtain ⟨r, s₁, h₁, h⟩ := Prog.bind_eq_ok h
    obtain ⟨rfl, rfl⟩ := request_ok h₁
    obtain ⟨c, hc, h⟩ := clientOf_bind_ok h
    obtain ⟨hty, h⟩ := require_bind_ok h
    obtain ⟨hst, h⟩ := require_bind_ok h
    have hty := of_decide_eq_true hty
    have hst := of_decide_eq_true hst
    obtain ⟨⟨ret, descs'⟩, s₅, h₅, h⟩ := Prog.bind_eq_ok h
    dsimp only at h
    split at h
    · rename_i hret
      cases h
      exact absurd rfl hret
    · obtain ⟨ops, hops, rfl⟩ := ih h
      rcases blockOnCompletion_ok h₅ with ⟨hlt, hw, rfl⟩ | ⟨hlt, hw, rfl⟩
      · rw [hw] at hops
        exact ⟨_, .arm hc hty hst hlt hops, by rw [List.append_assoc]; rfl⟩
      · rw [hw] at hops
        exact ⟨_, .skip hc hty hst hlt hops, rfl⟩

theorem mpWaitAllOnStream_ok (he : cfg.useEventSync = true) {ps : List Ptr} {st : Stream} {s s' : Sys}
    (h : mpWaitAllOnStream cfg ps st s = (.ok 0, s')) :
    ∃ w ops, WaitsOn cfg s.w w ps ops ∧ s'.w = w.enqueue st ops := by
  unfold mpWaitAllOnStream at h
  split at h
  · rename_i hps
    cases h
    rw [hps]
    exact ⟨_, [], .nil _, (World.enqueue_nil _ _).symm⟩
  · obtain ⟨⟨ret, descs⟩, s₁, h₁, h⟩ := Prog.bind_eq_ok h
    dsimp only at h
    split at h
    · rename_i hret
      cases h
      exact absurd rfl hret
    · rename_i hret
      rw [ne_eq, not_not] at hret
      subst hret
      obtain ⟨ops, hops, rfl⟩ := waitAllEvent_ok h₁
      exact ⟨_, _, hops, gdsStreamPostDescriptors_ok h⟩

/-! ## Runs -/

/-- A handle of a send or a receive that was posted. -/
def PostedHandle (cfg : Config) (w : World) (p : Ptr) : Prop :=
  PostedReq cfg w p ∧ ∃ fn, (w.mem p).owner = some fn ∧ fn.isPut = false

/-- Sends and receives, sends on a stream, stream waits and progress; completions
are polled in the order of acceptance. -/
def OrderCalls (cfg : Config) : Event → World → Prop
  | .call op tape, w => (∀ ans ∈ tape, inOrder ans) ∧
    match op with
    | .irecv .. | .isend .. | .sendOnStream .. | .isendOnStream .. | .progressAll _ | .progress _ => True
    | .waitOnStream p _ => PostedHandle cfg w p
    | .waitAllOnStream ps _ => ∀ p ∈ ps, PostedHandle cfg w p
    | _ => False
  | .gpu _, _ | .work _ _, _ => True

theorem OrderCalls.scope {ev : Event} {w : World} (h : OrderCalls cfg ev w) : EventScope ev w := by
  cases ev with
  | call op tape =>
    obtain ⟨-, h⟩ := h
    cases op with
    | waitOnStream p s => exact h.1.1
    | waitAllOnStream ps s => exact fun p hp => (h p hp).1.1
    | _ => first | exact h | exact h.elim
  | gpu | work => trivial

/-- What a stream wait for `ps` on `s` needs: what it arms stands behind every
request waited for, and each of `ps` that is not complete is guarded, by a wait
on `s` or by one of those this call enqueues. -/
structure WaitSafe (cfg : Config) (w : World) (ps : List Ptr) (s : Stream) : Prop where
  arms : ∀ q ∈ waitsArm cfg w ps, ∀ c f p, w.At cfg q c f → w.Waited cfg c f p → p = q ∨ w.Ahead c f p q
  guarded : ∀ p ∈ ps, ∀ c f, w.At cfg p c f → (w.mem p).status ≠ .complete → ∃ v,
    (.wait (.lastTrackedId c f) v .geq ∈ (w.streams s).todo ∨
      ∃ x ∈ waitsArm cfg w ps, w.At cfg x c f ∧ (w.mem x).id = v) ∧
    (w.clients c).lastTrackedId f < v ∧
    ∀ q, w.Armed cfg q c f ∨ q ∈ waitsArm cfg w ps ∧ w.At cfg q c f → v ≤ (w.mem q).id → q = p ∨ w.Ahead c f p q

def WaitsSafe (cfg : Config) : Event → World → Prop
  | .call (.waitOnStream p s) _, w => WaitSafe cfg w [p] s
  | .call (.waitAllOnStream ps s) _, w => WaitSafe cfg w ps s
  | _, _ => True

/-- The conditions of the machine on the steps of these runs. -/
def orderSteps (cfg : Config) (l : Lbl) (a : Mach) : Prop := armsSignaled l a ∧ waitsGuarded cfg l a

theorem World.OnlyArms.line {w w' : World} (h : w.OnlyArms w') (c : Nat) (f : Flow) (l : List Ptr) :
    w'.Line c f l ↔ w.Line c f l := by
  obtain ⟨x, hx⟩ := h.client c
  exact World.line_congr (fun q => (h.state q).2.2.2.2.2.2) (by rw [hx]) (by rw [h.cq]) l

/-- A stream wait arms behind the requests waited for. -/
theorem orderSteps_of_safe {w w' : World} {ps : List Ptr} {s : Stream} {q : Ptr} (hsafe : WaitSafe cfg w ps s)
    (hw : w.OnlyArms w') (hq : q ∈ waitsArm cfg w ps) (hp : PostedReq cfg w q) (hn : nowait (w.mem q).flags = false)
    {c : Nat} (hc : cfg.clientIndex (w.mem q).peer = some c) :
    orderSteps cfg (.arm c (w.mem q).type.flow q) ⟨w', none⟩ := by
  refine ⟨armsSignaled_of_posted hw hp hc hn, rfl, fun x hx => ?_⟩
  obtain ⟨d, g, hat, -⟩ := hp.2
  obtain ⟨rfl, rfl⟩ := hat.unique ⟨hc, hat.2.1, rfl⟩
  obtain ⟨h1, h2, h3, s', k, h4⟩ := hx
  obtain ⟨-, -, hid, -, ho, hst, -⟩ := hw.state x
  dsimp only at h1 h3 h4
  rw [ho] at h1
  rw [hst] at h3
  rw [hid, hw.log] at h4
  rcases hsafe.arms q hq d _ x hat ⟨h1, hw.at_iff.mp h2, h3, s', k, h4⟩ with heq | ⟨l, hl, hsub⟩
  · exact .inl heq
  · exact .inr ⟨l, (hw.line d _ l).mpr hl, hsub⟩

section Notes
variable {w w₁ v : World} {ps : List Ptr} {s : Stream} {ops : List StreamOp}
  (hsafe : WaitSafe cfg w ps s) (hops : WaitsOn cfg w w₁ ps ops)
  (hin : ∀ p ∈ ps, ∀ c f, w.At cfg p c f → (w.mem p).status ≠ .complete → w.InLine c f p)
  (ho : ∀ p ∈ ps, (w.mem p).owner ≠ none)
include hsafe hops hin ho

/-- When a stream wait that was safe returns 0, its requests are complete or guarded. -/
theorem note_of_safe (hm : v.mem = w₁.mem) (hcl : v.clients = w₁.clients) (hcq : v.cq = w₁.cq)
    (hst : (v.streams s).todo = (w.streams s).todo ++ ops) {p : Ptr} (hp : p ∈ ps) :
    waitsGuarded cfg (.note ((cfg.clientIndex (v.mem p).peer).getD 0) (v.mem p).type.flow p s) ⟨v, none⟩ := by
  obtain ⟨c, hc, hty⟩ := hops.known p hp
  obtain ⟨h1, h2, -, -, h5, h6, -⟩ := hops.arms.state p
  have hat : w.At cfg p c (w.mem p).type.flow := ⟨hc, hty, rfl⟩
  have hline : ∀ f l, v.Line c f l ↔ w.Line c f l := fun f l =>
    (World.line_congr (fun q => by rw [hm]) (by rw [hcl]) (by rw [hcq]) l).trans (hops.arms.line c f l)
  have hahead : ∀ f p q, w.Ahead c f p q → v.Ahead c f p q :=
    fun f p q ⟨l, hl, hpq⟩ => ⟨l, (hline f l).mpr hl, hpq⟩
  have harmed : ∀ q f, v.Armed cfg q c f → w.Armed cfg q c f ∨ q ∈ waitsArm cfg w ps ∧ w.At cfg q c f := by
    rintro q f ⟨a1, a2, a3, a4⟩
    rw [hm] at a1 a3 a4
    rw [World.At, hm] at a2
    rcases hops.armed q c f ⟨a1, a2, a3, a4⟩ with hold | hnew
    · exact .inl hold
    · exact .inr ⟨hnew, hops.arms.at_iff.mp a2⟩
  rw [hm, h1, h2, hc]
  refine ⟨by rw [hm, h5]; exact ho p hp, by rw [World.At, hm, h1, h2]; exact hat, ?_⟩
  rw [hm, h6]
  by_cases hcomp : (w.mem p).status = .complete
  · exact .inl hcomp
  · obtain ⟨l, hl, hpl⟩ := hin p hp c _ hat hcomp
    obtain ⟨u, hwait, hlt, hbehind⟩ := hsafe.guarded p hp c _ hat hcomp
    obtain ⟨x, hx⟩ := hops.arms.client c
    refine .inr ⟨⟨l, (hline _ l).mpr hl, hpl⟩, u, ?_, by rw [hcl, Option.getD_some, hx]; exact hlt, fun q hq hu => ?_⟩
    · rw [hst]
      rcases hwait with hold | ⟨y, hy, haty, rfl⟩
      · exact List.mem_append_left _ hold
      · exact List.mem_append_right _ (hops.waits y hy c _ haty)
    · rw [hm, (hops.arms.state q).2.2.1] at hu
      rcases hbehind q (harmed q _ hq) hu with heq | ha
      · exact .inl heq
      · exact .inr (hahead _ p q ha)

theorem noteAll_of_safe (rest : List Ptr) (hrest : ∀ p ∈ rest, p ∈ ps) (hm : v.mem = w₁.mem)
    (hcl : v.clients = w₁.clients) (hcq : v.cq = w₁.cq) (hst : (v.streams s).todo = (w.streams s).todo ++ ops) :
    NoteAll cfg (orderSteps cfg) s v rest := by
  induction rest generalizing v with
  | nil => trivial
  | cons p rest ih =>
    refine ⟨⟨trivial, note_of_safe hsafe hops hin ho hm hcl hcq hst (hrest p List.mem_cons_self)⟩, ?_⟩
    exact ih (fun q hq => hrest q (List.mem_cons_of_mem p hq)) hm hcl hcq hst

end Notes

theorem opOk_of_safe (he : cfg.useEventSync = true) {w : World} (hc : CoreInv cfg ⟨w, none⟩) {op : Op}
    {tape : List Ans} (h : OrderCalls cfg (.call op tape) w) (ha : WaitsSafe cfg (.call op tape) w) :
    OpOk cfg inOrder (orderSteps cfg) w op := by
  have hne : cfg.useEventSync ≠ false := by rw [he]; decide
  have hflags : ∀ p, PostedHandle cfg w p → nowait (w.mem p).flags = false := by
    rintro p ⟨-, fn, hfn, hput⟩
    obtain ⟨fl, pl, hc⟩ := hc
    rw [show (w.mem p).flags = 0 from hc.flags_ok p fn hfn hput]
    exact nowait_zero
  obtain ⟨-, h⟩ := h
  cases op with
  | irecv | isend | isendOnStream | progressAll | progress => exact trivial
  | sendOnStream => exact fun _ _ _ _ _ => ⟨trivial, trivial⟩
  | waitOnStream p s =>
    refine ⟨fun _ => ⟨(live_iff_owner hc p).mp h.1.1, fun c hpeer hst hlt => ?_⟩, fun hn => absurd hn hne⟩
    exact orderSteps_of_safe ha (.refl w) (by simp [waitsArm, hpeer, hst, hlt]) h.1 (hflags p h) hpeer
  | waitAllOnStream ps s =>
    refine ⟨fun _ => armAll_of_waitsArm (fun p hp => (live_iff_owner hc p).mp (h p hp).1.1) ?_, fun hn => absurd hn hne⟩
    intro q hq w' hw' c hpeer
    have hps := waitsArm_subset hq
    exact orderSteps_of_safe ha hw' hq (h q hps).1 (hflags q (h q hps)) hpeer
  | _ => exact h.elim

section Runs
variable (he : cfg.useEventSync = true)
include he

theorem order_moves {w : World} {ev : Event} {fl : List Ptr} {pl : Nat → List Ptr} (hc : Core cfg ⟨w, none⟩ fl pl)
    (hinv : OrderInv cfg ⟨w, none⟩ pl) (h : OrderCalls cfg ev w) (hev : WaitsSafe cfg ev w)
    (ha : alive (ev.exec cfg w).1) :
    Moves (Move cfg inOrder (orderSteps cfg)) ⟨w, none⟩ ⟨(ev.exec cfg w).2, none⟩ := by
  have hposted : ∀ p, PostedHandle cfg w p → (w.mem p).owner ≠ none ∧
      ∀ c f, w.At cfg p c f → (w.mem p).status ≠ .complete → w.InLine c f p := by
    rintro p ⟨⟨hlive, d, g, hatd, hpost⟩, fn, hfn, hput⟩
    have ho := (live_iff_owner ⟨fl, pl, hc⟩ p).mp hlive
    refine ⟨ho, fun c f hat hst => hc.inLine_iff.mpr (hinv.base.posted_line c f p ho hat ?_ ?_ hst)⟩
    · obtain ⟨rfl, rfl⟩ := hatd.unique hat
      exact hpost
    · rw [show (w.mem p).flags = 0 from hc.flags_ok p fn hfn hput]
      exact nowait_zero
  refine event_moves_noting ?_ (fun _ _ _ => ⟨trivial, trivial⟩) ?_ ?_ ?_ ?_ ha
  · intro l a hl
    cases l <;> first | exact ⟨trivial, trivial⟩ | exact hl.elim
  · exact fun k hk => absurd hk List.not_mem_nil
  · rintro op tape req s' st ps rfl hrun hwait
    obtain ⟨-, h⟩ := h
    cases op with
    | waitOnStream p s =>
      cases hwait
      obtain ⟨ret, s₁, h₁, h₂⟩ := Prog.bind_eq_ok hrun
      cases h₂
      obtain ⟨w₁, ops, hops, hs'⟩ := mpWaitOnStream_ok he h₁
      rw [hs']
      refine noteAll_of_safe hev hops ?_ ?_ [p] (fun q hq => hq) rfl rfl rfl ?_
      · intro q hq
        rw [List.mem_singleton.mp hq]
        exact (hposted p h).2
      · intro q hq
        rw [List.mem_singleton.mp hq]
        exact (hposted p h).1
      · simp [hops.arms.streams]
    | waitAllOnStream qs s =>
      cases hwait
      obtain ⟨ret, s₁, h₁, h₂⟩ := Prog.bind_eq_ok hrun
      cases h₂
      obtain ⟨w₁, ops, hops, hs'⟩ := mpWaitAllOnStream_ok he h₁
      rw [hs']
      refine noteAll_of_safe hev hops (fun q hq => (hposted q (h q hq)).2) (fun q hq => (hposted q (h q hq)).1) ps
        (fun q hq => hq) rfl rfl rfl ?_
      simp [hops.arms.streams]
    | _ => cases hwait
  · rintro op tape rfl
    exact ⟨opOk_of_safe he ⟨fl, pl, hc⟩ h hev, h.1⟩
  · exact fun g _ k hk => absurd hk List.not_mem_nil

omit he in
theorem OrderInv.init : OrderInv cfg ⟨World.init, none⟩ fun _ => [] where
  base := .init
  fresh k hk := by cases hk
  polled _ _ p ho := absurd (init_owner p) ho
  guarded _ _ _ _ _ _ hw := absurd hw List.not_mem_nil
  ran_lt _ _ _ hr := absurd hr List.not_mem_nil
  order _ _ _ _ _ _ _ _ hw := absurd hw List.not_mem_nil

theorem orderInv_moves {b : Mach} (hm : Moves (Move cfg inOrder (orderSteps cfg)) ⟨World.init, none⟩ b) :
    ∃ fl pl, Core cfg b fl pl ∧ OrderInv cfg b pl := by
  obtain ⟨fl, hc⟩ := Core.init cfg
  exact inv_moves (J := OrderInv cfg) (fun a b l fl pl hc h hk hs => h.step he hc hk.1 hk.2 hs) hc .init hm

theorem reach_order_moves {w : World} (h : Reach cfg (fun ev w => OrderCalls cfg ev w ∧ WaitsSafe cfg ev w) w) :
    Moves (Move cfg inOrder (orderSteps cfg)) ⟨World.init, none⟩ ⟨w, none⟩ := by
  refine reach_moves (fun w ev _ hm hev ha => ?_) h
  obtain ⟨fl, pl, hc, hinv⟩ := orderInv_moves he hm
  exact order_moves he hc hinv hev.1 hev.2 ha

/-- Where stream waits are safe, no operation that was enqueued on the stream
after the wait has returned 0 executes before the completion of the request is
polled. -/
theorem waits_block_stream {w : World} (h : Reach cfg (fun ev w => OrderCalls cfg ev w ∧ WaitsSafe cfg ev w) w)
    (c : Nat) (f : Flow) (p : Ptr) (op : Nat) (s : Stream) (k : Nat) (hw : .waited c f p op s k ∈ w.log) :
    ∀ m o l₁ l₂, k ≤ m → w.log = l₁ ++ .ran s m o :: l₂ → .polled c f p op ∈ l₁ := by
  obtain ⟨fl, pl, -, hinv⟩ := orderInv_moves he (reach_order_moves he h)
  exact fun m o l₁ l₂ hkm heq => hinv.order c f p op s k m o hw hkm l₁ l₂ heq

end Runs

/-- Work of the caller on stream 1. -/
def workOnOne : Event := .work 1 0

/-- The only send is waited for on stream 1, its completion is polled, and then
the work enqueued after the wait runs. -/
theorem waits_block_stream_of_send :
    ∃ w, Reach eventPeer (fun ev w => OrderCalls eventPeer ev w ∧ WaitsSafe eventPeer ev w) w ∧
      .waited 0 .tx 0 1 1 1 ∈ w.log ∧ .ran 1 1 (.work 0) ∈ w.log ∧
      ∀ m o l₁ l₂, 1 ≤ m → w.log = l₁ ++ .ran 1 m o :: l₂ → .polled 0 .tx 0 1 ∈ l₁ := by
  have h₀ : Reach eventPeer (fun ev w => OrderCalls eventPeer ev w ∧ WaitsSafe eventPeer ev w)
      (World.init.after eventPeer [isendOne]) :=
    Reach.init.after eventPeer ⟨⟨⟨by simp, trivial⟩, trivial⟩, by decide, trivial⟩
  have hat : World.At eventPeer (World.init.after eventPeer [isendOne]) 0 0 .tx :=
    ⟨by decide, by decide, by decide⟩
  have hhandle : PostedHandle eventPeer (World.init.after eventPeer [isendOne]) 0 :=
    ⟨⟨live_of_reach rfl (fun _ _ hev => hev.1.scope) h₀ (by decide), 0, .tx, hat, .inl (by decide)⟩, .mpIsend,
      by decide, rfl⟩
  have hsafe : WaitSafe eventPeer (World.init.after eventPeer [isendOne]) [0] 1 := by
    constructor
    · rintro q - c f p - ⟨-, -, -, s, k, hw⟩
      have hlog : (World.init.after eventPeer [isendOne]).log = [.accepted 0 .tx 0 1] := by decide
      rw [hlog] at hw
      simp at hw
    · intro p hp c f hatp _
      obtain rfl := List.mem_singleton.mp hp
      obtain ⟨rfl, rfl⟩ := hat.unique hatp
      refine ⟨1, .inr ⟨0, by decide, hat, by decide⟩, by decide, fun q hq _ => ?_⟩
      rcases hq with hq | ⟨hq, -⟩
      · obtain ⟨fl, pl, -, hinv⟩ := orderInv_moves rfl (reach_order_moves rfl h₀)
        exact absurd hq (hinv.base.ids.not_armed (by decide) q)
      · exact .inl (by simpa using waitsArm_subset hq)
  have h₁ := h₀.step (waitOnOne 0) ⟨⟨by simp, hhandle⟩, hsafe⟩ (by decide)
  have h₂ := h₁.step workOnOne ⟨trivial, trivial⟩ (by decide)
  have h₃ := h₂.step (.call (.progress .tx) [{ picks := [0] }]) ⟨⟨by simp [inOrder], trivial⟩, trivial⟩ (by decide)
  have h₄ := h₃.step (.gpu (.run 1)) ⟨trivial, trivial⟩ (by decide)
  have h₅ := h₄.step (.gpu (.run 1)) ⟨trivial, trivial⟩ (by decide)
  exact ⟨_, h₅, by decide, by decide, waits_block_stream rfl h₅ 0 .tx 0 1 1 1 (by decide)⟩

/-- A send is waited for on stream 0, then on stream 1: the second wait enqueues
nothing, and the work that follows it runs before the send completes. -/
theorem elided_wait_lets_stream_run :
    ∃ w, Reach eventPeer (OrderCalls eventPeer) w ∧ .waited 0 .tx 0 1 1 0 ∈ w.log ∧
      .ran 1 0 (.work 0) ∈ w.log ∧ .polled 0 .tx 0 1 ∉ w.log := by
  have h₀ : Reach eventPeer (OrderCalls eventPeer) (World.init.after eventPeer [isendOne]) :=
    Reach.init.after eventPeer ⟨⟨by simp, trivial⟩, by decide, trivial⟩
  have hhandle : ∀ {w}, Reach eventPeer (OrderCalls eventPeer) w → (w.mem 0).owner = some .mpIsend →
      w.At eventPeer 0 0 .tx → .accepted 0 .tx 0 (w.mem 0).id ∈ w.log → PostedHandle eventPeer w 0 :=
    fun h ho hat hacc => ⟨⟨live_of_reach rfl (fun _ _ hev => hev.scope) h (by rw [ho]; decide), 0, .tx, hat, .inl hacc⟩,
      .mpIsend, ho, rfl⟩
  have h₁ := h₀.step (.call (.waitOnStream 0 0) [])
    ⟨by simp, hhandle h₀ (by decide) ⟨by decide, by decide, by decide⟩ (by decide)⟩ (by decide)
  have h₂ := h₁.step (waitOnOne 0)
    ⟨by simp, hhandle h₁ (by decide) ⟨by decide, by decide, by decide⟩ (by decide)⟩ (by decide)
  have h₃ := h₂.step workOnOne trivial (by decide)
  have h₄ := h₃.step (.gpu (.run 1)) trivial (by decide)
  exact ⟨_, h₄, by decide, by decide, by decide⟩

end LibMp
