import LibMp.EventBatch
import LibMp.PostedList
import LibMp.Posting
import LibMp.Line

/- The trigger writes with event sync: a send that was posted on a stream is
   handed to the HCA after the stream has come to it.

   All streams write the ids of their sends to the one `last_trigger_id` of the
   client, and the posted list compares with `<=`. So a send is handed over as
   soon as any stream has written its id or a later one. `TriggerInv` says that
   the trigger writes a client still waits for stand on one stream, in the order
   of the ids and above `last_trigger_id`: then the write that lets a send go is
   its own. That is so as long as a send is posted only where no other stream
   has a trigger write of the client left, and every request that gets on the
   posted list gets its write. -/
namespace LibMp
variable {cfg : Config}

/-! ## Trigger writes -/

/-- The id that the operation writes to `last_trigger_id[TX_FLOW]` of client `c`. -/
def StreamOp.trigger (c : Nat) : StreamOp → Option Nat
  | .write (.lastTriggerId d .tx) v => if d = c then some v else none
  | _ => none

theorem StreamOp.trigger_eq {c v : Nat} {op : StreamOp} (h : op.trigger c = some v) :
    op = .write (.lastTriggerId c .tx) v := by
  unfold StreamOp.trigger at h
  split at h
  · split at h
    · rename_i hd
      cases h
      rw [hd]
    · cases h
  · cases h

def triggers (c : Nat) (ops : List StreamOp) : List Nat := ops.filterMap (StreamOp.trigger c)

theorem triggers_append (c : Nat) (ops ops' : List StreamOp) :
    triggers c (ops ++ ops') = triggers c ops ++ triggers c ops' :=
  List.filterMap_append

theorem World.effect_lastTriggerId (w : World) (op : StreamOp) (c : Nat) : ((w.effect op).clients c).lastTriggerId .tx =
    (op.trigger c).getD ((w.clients c).lastTriggerId .tx) := by
  cases op with
  | write word v =>
    cases word with
    | lastTriggerId d f =>
      simp only [World.effect, World.setWord, World.setClient_clients]
      by_cases hd : c = d
      · cases f <;> simp [StreamOp.trigger, hd]
      · cases f <;> simp [StreamOp.trigger, hd, Ne.symm hd]
    | lastTrackedId d f =>
      rw [World.effect, World.setWord]
      refine w.setClient_rel (R := fun a b => b.lastTriggerId .tx = a.lastTriggerId .tx) (fun _ => rfl) ?_ c
      rfl
    | user addr => rfl
  | _ => rfl

theorem World.effect_log (w : World) (op : StreamOp) : (w.effect op).log = w.log := by
  cases op with
  | write word v => cases word <;> rfl
  | _ => rfl

/-- The ids that stream `s` will still write for client `c`. -/
def World.pendingTriggers (w : World) (s : Stream) (c : Nat) : List Nat := triggers c (w.streams s).todo

/-- The stream `s` has executed the trigger write of the operation, and all the
work before it. -/
def Ran (log : List LogEv) (s : Stream) (c op : Nat) : Prop :=
  ∃ k, .ran s k (.write (.lastTriggerId c .tx) op) ∈ log ∧ ∀ j < k, ∃ o, .ran s j o ∈ log

theorem Ran.append {log : List LogEv} {s : Stream} {c op : Nat} (h : Ran log s c op) (es : List LogEv) :
    Ran (log ++ es) s c op := by
  obtain ⟨k, hk, hbefore⟩ := h
  refine ⟨k, List.mem_append_left _ hk, fun j hj => ?_⟩
  obtain ⟨o, ho⟩ := hbefore j hj
  exact ⟨o, List.mem_append_left _ ho⟩

/-- Every request that was handed over had been posted on a stream before, and
the stream had executed its trigger write and the work before it. -/
def TriggeredFirst (log : List LogEv) : Prop := ∀ l c p op trig, l ++ [.handed c p op trig] <+: log →
  (∃ s, .tracked c p op s ∈ l) ∧ ∀ s, .tracked c p op s ∈ l → Ran l s c op

namespace TriggeredFirst
variable {log : List LogEv}

theorem nil : TriggeredFirst [] := by
  intro l c p op trig h
  have hnil := List.prefix_nil.mp h
  simp at hnil

theorem concat (h : TriggeredFirst log) {e : LogEv} (he : ∀ c p op trig, e = .handed c p op trig →
    (∃ s, .tracked c p op s ∈ log) ∧ ∀ s, .tracked c p op s ∈ log → Ran log s c op) : TriggeredFirst (log ++ [e]) := by
  intro l c p op trig hl
  rcases List.prefix_concat_iff.mp hl with heq | hl
  · obtain ⟨rfl, hlast⟩ := List.append_inj' heq rfl
    cases hlast
    exact he c p op trig rfl
  · exact h l c p op trig hl

theorem append (h : TriggeredFirst log) (es : List LogEv) (hes : ∀ c p op trig, .handed c p op trig ∉ es) :
    TriggeredFirst (log ++ es) := by
  induction es generalizing log with
  | nil =>
    rw [List.append_nil]
    exact h
  | cons e rest ih =>
    have hstep : TriggeredFirst (log ++ [e]) := by
      refine h.concat fun c p op trig he => ?_
      rw [he] at hes
      exact absurd List.mem_cons_self (hes c p op trig)
    have hrest := ih hstep fun c p op trig hm => hes c p op trig (List.mem_cons_of_mem e hm)
    rw [List.append_assoc] at hrest
    exact hrest

end TriggeredFirst

/-! ## The invariant -/

/-- No word is written but by the streams, in their order. -/
def NoStores (ans : Ans) : Prop := ∀ c v, .store c v ∉ ans.gpu

/-- See the head of the file. -/
structure TriggerInv (w : World) : Prop where
  alone : ∀ c s t, s ≠ t → w.pendingTriggers s c = [] ∨ w.pendingTriggers t c = []
  rising : ∀ c s, (w.pendingTriggers s c).Pairwise (· < ·)
  above : ∀ c s, ∀ v ∈ w.pendingTriggers s c, (w.clients c).lastTriggerId .tx < v
  below : ∀ c s, ∀ v ∈ w.pendingTriggers s c, v ≤ (w.clients c).lastPostedTriggerId .tx
  reached : ∀ c, (w.clients c).lastTriggerId .tx ≤ (w.clients c).lastPostedTriggerId .tx
  came : ∀ c p op s, .tracked c p op s ∈ w.log → op ∈ w.pendingTriggers s c ∨ Ran w.log s c op
  numbered : ∀ s j, j < (w.streams s).done → ∃ o, .ran s j o ∈ w.log
  first : TriggeredFirst w.log

namespace TriggerInv
variable {w w' : World}

theorem init : TriggerInv World.init := by
  refine ⟨fun _ _ _ _ => .inl rfl, fun _ _ => .nil, ?_, ?_, fun _ => Nat.le_refl _, ?_, ?_, TriggeredFirst.nil⟩
  · intro c s v hv
    cases hv
  · intro c s v hv
    cases hv
  · intro c p op s h
    cases h
  · intro s j hj
    exact absurd hj (Nat.not_lt_zero j)

/-- What concerns neither the trigger words nor the streams. -/
theorem same (h : TriggerInv w) (hs : w'.streams = w.streams)
    (htrig : ∀ c, (w'.clients c).lastTriggerId .tx = (w.clients c).lastTriggerId .tx)
    (hposted : ∀ c, (w'.clients c).lastPostedTriggerId .tx = (w.clients c).lastPostedTriggerId .tx)
    {es : List LogEv} (hlog : w'.log = w.log ++ es) (htracked : ∀ c p op s, .tracked c p op s ∉ es)
    (hfirst : TriggeredFirst w'.log) : TriggerInv w' := by
  have hp : ∀ s c, w'.pendingTriggers s c = w.pendingTriggers s c := by
    intro s c
    rw [World.pendingTriggers, hs]
    rfl
  refine ⟨fun c s t hst => ?_, fun c s => ?_, fun c s v hv => ?_, fun c s v hv => ?_, fun c => ?_,
    fun c p op s ht => ?_, fun s j hj => ?_, hfirst⟩
  · rw [hp, hp]
    exact h.alone c s t hst
  · rw [hp]
    exact h.rising c s
  · rw [htrig]
    rw [hp] at hv
    exact h.above c s v hv
  · rw [hposted]
    rw [hp] at hv
    exact h.below c s v hv
  · rw [htrig, hposted]
    exact h.reached c
  · rw [hlog] at ht ⊢
    rw [hp]
    rcases List.mem_append.mp ht with ht | ht
    · exact (h.came c p op s ht).imp_right fun hr => hr.append es
    · exact absurd ht (htracked c p op s)
  · rw [hs] at hj
    obtain ⟨o, ho⟩ := h.numbered s j hj
    rw [hlog]
    exact ⟨o, List.mem_append_left _ ho⟩

/-- A stream goes on by one operation. -/
theorem gpu (h : TriggerInv w) (s : Stream) : TriggerInv (w.gpuStep s) := by
  rcases w.gpuStep_cases s with hw | ⟨op, rest, hq, -, hw⟩
  · rw [hw]
    exact h
  have hself : ∀ c, w.pendingTriggers s c = (op.trigger c).toList ++ triggers c rest := by
    intro c
    rw [World.pendingTriggers, hq, triggers, List.filterMap_cons]
    cases op.trigger c <;> rfl
  have hnew : ∀ c, (w.gpuStep s).pendingTriggers s c = triggers c rest := by
    intro c
    rw [hw, World.pendingTriggers, World.addLog_streams, World.effect_streams]
    simp [World.shift, hq]
  have hother : ∀ t c, t ≠ s → (w.gpuStep s).pendingTriggers t c = w.pendingTriggers t c := by
    intro t c hts
    rw [hw, World.pendingTriggers, World.addLog_streams, World.effect_streams]
    simp [World.shift, hts, World.pendingTriggers]
  have hsub : ∀ t c, ((w.gpuStep s).pendingTriggers t c).Sublist (w.pendingTriggers t c) := by
    intro t c
    by_cases hts : t = s
    · rw [hts, hnew, hself]
      exact List.sublist_append_right _ _
    · rw [hother t c hts]
  have htrig : ∀ c, ((w.gpuStep s).clients c).lastTriggerId .tx = (op.trigger c).getD
    ((w.clients c).lastTriggerId .tx) := by
    intro c
    rw [hw, World.addLog_clients, World.effect_lastTriggerId]
    rfl
  have hposted : ∀ c, ((w.gpuStep s).clients c).lastPostedTriggerId = (w.clients c).lastPostedTriggerId := by
    intro c
    obtain ⟨x, y, hc⟩ := w.gpuStep_clients s c
    rw [hc]
  have hlog : (w.gpuStep s).log = w.log ++ [.ran s (w.streams s).done op] := by
    rw [hw, World.addLog_log, World.effect_log]
    rfl
  have hdone : ∀ t j, j < ((w.gpuStep s).streams t).done → j < (w.streams t).done ∨ t = s ∧ j = (w.streams s).done := by
    intro t j hj
    rw [hw, World.addLog_streams, World.effect_streams] at hj
    by_cases hts : t = s
    · subst hts
      simp only [World.shift, Function.update_self] at hj
      exact (Nat.lt_succ_iff_lt_or_eq.mp hj).imp_right fun heq => ⟨rfl, heq⟩
    · simp only [World.shift, Function.update_of_ne hts] at hj
      exact .inl hj
  constructor
  case alone =>
    intro c t u htu
    refine (h.alone c t u htu).imp ?_ ?_
    · intro hnil
      exact List.sublist_nil.mp (hnil ▸ hsub t c)
    · intro hnil
      exact List.sublist_nil.mp (hnil ▸ hsub u c)
  case rising =>
    intro c t
    exact (h.rising c t).sublist (hsub t c)
  case above =>
    intro c t v hv
    have hold := h.above c t v ((hsub t c).subset hv)
    rw [htrig]
    cases hx : op.trigger c with
    | none => exact hold
    | some x =>
      -- the write is one of the client: the others of the client stand behind it
      have hcons : w.pendingTriggers s c = x :: triggers c rest := by
        rw [hself, hx]
        rfl
      have hts : t = s := by
        by_contra hne
        rcases h.alone c t s hne with hnil | hnil
        · rw [hother t c hne, hnil] at hv
          cases hv
        · rw [hcons] at hnil
          cases hnil
      rw [hts, hnew] at hv
      have hrise := h.rising c s
      rw [hcons] at hrise
      exact List.rel_of_pairwise_cons hrise hv
  case below =>
    intro c t v hv
    rw [hposted]
    exact h.below c t v ((hsub t c).subset hv)
  case reached =>
    intro c
    rw [htrig, hposted]
    cases hx : op.trigger c with
    | none => exact h.reached c
    | some x =>
      refine h.below c s x ?_
      rw [hself, hx]
      exact List.mem_cons_self
  case came =>
    intro c p o t ht
    rw [hlog] at ht ⊢
    have hold : .tracked c p o t ∈ w.log := by simpa using ht
    rcases h.came c p o t hold with hpend | hran
    · by_cases hts : t = s
      · rw [hts, hself] at hpend
        rcases List.mem_append.mp hpend with hhead | hpend
        · -- it is the operation that has just run, and all before it have run
          right
          have hop : op.trigger c = some o := by simpa using hhead
          rw [hts, StreamOp.trigger_eq hop]
          refine ⟨_, List.mem_append_right _ List.mem_cons_self, fun j hj => ?_⟩
          obtain ⟨o', ho'⟩ := h.numbered s j hj
          exact ⟨o', List.mem_append_left _ ho'⟩
        · left
          rw [hts, hnew]
          exact hpend
      · left
        rw [hother t c hts]
        exact hpend
    · exact .inr (hran.append _)
  case numbered =>
    intro t j hj
    rw [hlog]
    rcases hdone t j hj with hold | ⟨rfl, rfl⟩
    · obtain ⟨o, ho⟩ := h.numbered t j hold
      exact ⟨o, List.mem_append_left _ ho⟩
    · exact ⟨op, List.mem_append_right _ List.mem_cons_self⟩
  case first =>
    rw [hlog]
    exact h.first.append _ (by simp)

/-- The posted list hands over its first request: `last_trigger_id` has reached
the id, so the trigger write of the request is none of those that are left. -/
theorem handed (h : TriggerInv w) {cur : Option Cur} {fl : List Ptr} {pl : Nat → List Ptr}
    (hcore : Core cfg ⟨w, cur⟩ fl pl) (hist : PostedHistory cfg ⟨w, cur⟩ pl) {c : Nat} {f : Flow} {p : Ptr}
    (hp : (w.clients c).postedStreamReq f = some p) (hid : (w.mem p).id ≤ (w.clients c).lastTriggerId f) :
    (∃ s, .tracked c p (w.mem p).id s ∈ w.log) ∧ ∀ s, .tracked c p (w.mem p).id s ∈ w.log →
      Ran w.log s c (w.mem p).id := by
  obtain ⟨rfl, rest, hpl, -⟩ := hcore.handOver hp
  constructor
  · have hmem : (p, (w.mem p).id) ∈ trackedLog c w.log := by
      rw [hist.fifo c, hpl]
      exact List.mem_append_right _ List.mem_cons_self
    rw [trackedLog, List.mem_filterMap] at hmem
    obtain ⟨e, he, hx⟩ := hmem
    split at hx
    · split at hx
      · rename_i d q op s hd
        cases hx
        rw [hd] at he
        exact ⟨s, he⟩
      · cases hx
    · cases hx
  · intro s hs
    rcases h.came c p _ s hs with hpend | hran
    · have habove := h.above c s _ hpend
      omega
    · exact hran

/-- A step of progress. -/
theorem progress {a b : Mach} {l : Lbl} {fl : List Ptr} {pl : Nat → List Ptr} (h : TriggerInv a.w)
    (hcore : Core cfg a fl pl) (hist : PostedHistory cfg a pl) (hl : l.Progress) (hs : Step cfg NoStores l a b) :
    TriggerInv b.w := by
  have hlog := step_log hs
  have hposted := step_lastPostedTriggerId hs
  cases hs with
  | @reap w cur c f k wr ans hk =>
    refine h.same ?_ (fun d => ?_) hposted hlog ?_ ?_
    · exact (World.complete_rest cfg w c f k wr).2.2.1
    · rw [World.complete_clients]
      split
      · rename_i hd
        rw [hd]
      · rfl
    · simp [Lbl.log, hk]
    · rw [hlog]
      exact h.first.append _ (by simp [Lbl.log, hk])
  | @handOver w cur c f p _ hp hid =>
    have hrest := World.handOver_rest w c f p
    refine h.same hrest.2.1 (fun d => ?_) hposted hlog ?_ ?_
    · obtain ⟨x, y, hd⟩ := World.handOver_clients w c f p d
      rw [hd]
    · simp [Lbl.log]
    · rw [hlog]
      -- two events: the HCA accepts the work request, and the send counts as handed over
      have hacc := h.first.append [.accepted c .tx p (w.mem p).id] (by simp)
      have hhand := h.handed hcore hist hp hid
      have hboth := hacc.concat (e := .handed c p (w.mem p).id ((w.clients c).lastTriggerId f)) (by
        rintro d q op trig he
        cases he
        obtain ⟨⟨s, hs⟩, hran⟩ := hhand
        refine ⟨⟨s, List.mem_append_left _ hs⟩, fun t ht => ?_⟩
        exact (hran t (by simpa using ht)).append _)
      rw [List.append_assoc] at hboth
      exact hboth
  | gpu => exact h.gpu _
  | @store _ _ c v ans hgood hmem => exact absurd hmem (hgood c v)
  | _ => exact hl.elim

end TriggerInv

/-! ## Posting -/

/-- From `w` to `w'` requests got on the posted lists, for stream `s`; `ops` has
their trigger writes, and the streams have not got them yet. -/
structure Tracks (s : Stream) (w w' : World) (ops : List StreamOp) : Prop where
  streams : w'.streams = w.streams
  trig : ∀ c, (w'.clients c).lastTriggerId .tx = (w.clients c).lastTriggerId .tx
  le : ∀ c, (w.clients c).lastPostedTriggerId .tx ≤ (w'.clients c).lastPostedTriggerId .tx
  rising : ∀ c, (triggers c ops).Pairwise (· < ·)
  above : ∀ c, ∀ v ∈ triggers c ops, (w.clients c).lastPostedTriggerId .tx < v
  below : ∀ c, ∀ v ∈ triggers c ops, v ≤ (w'.clients c).lastPostedTriggerId .tx
  log : ∃ es, w'.log = w.log ++ es ∧ ∀ e ∈ es, ∃ c p op, e = .tracked c p op s ∧ op ∈ triggers c ops

namespace Tracks
variable {s : Stream} {w w₁ w₂ : World} {ops ops' : List StreamOp}

/-- Nothing is posted. -/
theorem skip (hs : w₁.streams = w.streams)
    (ht : ∀ c, (w₁.clients c).lastTriggerId .tx = (w.clients c).lastTriggerId .tx)
    (hp : ∀ c, (w₁.clients c).lastPostedTriggerId .tx = (w.clients c).lastPostedTriggerId .tx) (hl : w₁.log = w.log)
    (hops : ∀ c, triggers c ops = []) : Tracks s w w₁ ops := by
  refine ⟨hs, ht, fun c => Nat.le_of_eq (hp c).symm, fun c => ?_, fun c v hv => ?_, fun c v hv => ?_, [], ?_, ?_⟩
  · rw [hops]
    exact .nil
  · rw [hops] at hv
    cases hv
  · rw [hops] at hv
    cases hv
  · rw [hl, List.append_nil]
  · intro e he
    cases he

theorem trans (h₁ : Tracks s w w₁ ops) (h₂ : Tracks s w₁ w₂ ops') : Tracks s w w₂ (ops ++ ops') := by
  refine ⟨h₂.streams.trans h₁.streams, fun c => (h₂.trig c).trans (h₁.trig c), fun c => Nat.le_trans (h₁.le c)
    (h₂.le c), fun c => ?_, fun c v hv => ?_, fun c v hv => ?_, ?_⟩
  · rw [triggers_append]
    refine List.pairwise_append.mpr ⟨h₁.rising c, h₂.rising c, fun x hx y hy => ?_⟩
    exact Nat.lt_of_le_of_lt (h₁.below c x hx) (h₂.above c y hy)
  · rw [triggers_append] at hv
    rcases List.mem_append.mp hv with hv | hv
    · exact h₁.above c v hv
    · exact Nat.lt_of_le_of_lt (h₁.le c) (h₂.above c v hv)
  · rw [triggers_append] at hv
    rcases List.mem_append.mp hv with hv | hv
    · exact Nat.le_trans (h₁.below c v hv) (h₂.le c)
    · exact h₂.below c v hv
  · obtain ⟨es₁, hl₁, he₁⟩ := h₁.log
    obtain ⟨es₂, hl₂, he₂⟩ := h₂.log
    refine ⟨es₁ ++ es₂, by rw [hl₂, hl₁, List.append_assoc], fun e he => ?_⟩
    rcases List.mem_append.mp he with he | he
    · obtain ⟨c, p, op, rfl, hop⟩ := he₁ e he
      refine ⟨c, p, op, rfl, ?_⟩
      rw [triggers_append]
      exact List.mem_append_left _ hop
    · obtain ⟨c, p, op, rfl, hop⟩ := he₂ e he
      refine ⟨c, p, op, rfl, ?_⟩
      rw [triggers_append]
      exact List.mem_append_right _ hop

theorem triggers_triggerOp {c : Nat} {p : Ptr} (hflow : (w.mem p).type.flow = .tx) (d : Nat) :
    triggers d [w.triggerOp c p] = if c = d then [(w.mem p).id] else [] := by
  rw [World.triggerOp, hflow]
  by_cases hcd : c = d <;> simp [triggers, StreamOp.trigger, hcd]

theorem triggers_blockIf (w : World) (blocking : Bool) (c : Nat) (p : Ptr) (d : Nat) :
    triggers d (w.blockIf blocking c p).2 = [] := by
  unfold World.blockIf World.blockOn
  split
  · split <;> rfl
  · rfl

theorem blockIf_words (w : World) (blocking : Bool) (c : Nat) (p : Ptr) (d : Nat) :
    ((w.blockIf blocking c p).1.clients d).lastTriggerId = (w.clients d).lastTriggerId ∧
    ((w.blockIf blocking c p).1.clients d).lastPostedTriggerId = (w.clients d).lastPostedTriggerId := by
  unfold World.blockIf World.blockOn
  split
  · split
    · obtain ⟨x, hd⟩ := w.arm_clients c .tx p d
      rw [hd]
      exact ⟨rfl, rfl⟩
    · exact ⟨rfl, rfl⟩
  · exact ⟨rfl, rfl⟩

/-- Blocking the stream on the request posts nothing. -/
theorem blockIf (w : World) (blocking : Bool) (c : Nat) (p : Ptr) :
    Tracks s w (w.blockIf blocking c p).1 (w.blockIf blocking c p).2 := by
  refine skip ?_ (fun d => congrFun (blockIf_words w blocking c p d).1 .tx)
    (fun d => congrFun (blockIf_words w blocking c p d).2 .tx) ?_ (triggers_blockIf w blocking c p)
  · unfold World.blockIf World.blockOn
    split
    · split <;> rfl
    · rfl
  · unfold World.blockIf World.blockOn
    split
    · split <;> rfl
    · rfl

theorem postEvent_words {c : Nat} {p : Ptr} (hflow : (w.mem p).type.flow = .tx) (s : Stream) (d : Nat) :
    ((w.postEvent c p s).clients d).lastTriggerId = (w.clients d).lastTriggerId ∧
    ((w.postEvent c p s).clients d).lastPostedTriggerId .tx =
      if c = d then (w.mem p).id else (w.clients d).lastPostedTriggerId .tx := by
  obtain ⟨x, y, hd⟩ := World.append_heads (w := w.stamp c (w.mem p).type.flow p) (c := c) (f := .tx) (p := p) d
  rw [World.postEvent, World.addLog_clients, hd, hflow]
  simp only [World.stamp, World.setClient_clients]
  by_cases hcd : c = d
  · simp [hcd]
  · simp [hcd, Ne.symm hcd]

/-- One request is posted. -/
theorem post {c : Nat} {p : Ptr} (hlater : (w.clients c).lastPostedTriggerId .tx < (w.mem p).id)
    (hflow : (w.mem p).type.flow = .tx) : Tracks s w (w.postEvent c p s) [w.triggerOp c p] := by
  have hops := triggers_triggerOp (c := c) hflow
  have hclient := postEvent_words (c := c) hflow s
  refine ⟨?_, fun d => congrFun (hclient d).1 .tx, fun d => ?_, fun d => ?_, fun d v hv => ?_, fun d v hv => ?_, ?_⟩
  · rw [World.postEvent, World.addLog_streams, World.append_streams]
    rfl
  · rw [(hclient d).2]
    split
    · rename_i hcd
      rw [← hcd]
      exact Nat.le_of_lt hlater
    · exact Nat.le_refl _
  · rw [hops]
    split
    · exact List.pairwise_singleton _ _
    · exact .nil
  · -- the order check: the id is above what was posted for its client
    rw [hops] at hv
    split at hv
    · rename_i hcd
      rw [List.mem_singleton.mp hv, ← hcd]
      exact hlater
    · cases hv
  · rw [hops] at hv
    rw [(hclient d).2]
    split at hv
    · rename_i hcd
      rw [if_pos hcd, List.mem_singleton.mp hv]
    · cases hv
  · refine ⟨[.tracked c p (w.mem p).id s], ?_, fun e he => ⟨c, p, (w.mem p).id, List.mem_singleton.mp he, ?_⟩⟩
    · rw [World.postEvent, World.addLog_log, World.append_log]
      rfl
    · rw [hops, if_pos rfl]
      exact List.mem_cons_self

end Tracks

theorem World.pendingTriggers_enqueue (w : World) (s t : Stream) (ops : List StreamOp) (c : Nat) :
    (w.enqueue s ops).pendingTriggers t c =
      if t = s then w.pendingTriggers s c ++ triggers c ops else w.pendingTriggers t c := by
  unfold World.pendingTriggers
  rw [World.enqueue_streams]
  split
  · exact triggers_append c _ _
  · rfl

/-- The streams get the trigger writes, where no other stream has one of the
same clients left. -/
theorem TriggerInv.enqueue {s : Stream} {w w' : World} {ops : List StreamOp} (h : TriggerInv w) (ht : Tracks s w w' ops)
    (halone : ∀ c, triggers c ops ≠ [] → ∀ t, t ≠ s → w.pendingTriggers t c = []) : TriggerInv (w'.enqueue s ops) := by
  have hpend : ∀ t c, (w'.enqueue s ops).pendingTriggers t c =
      if t = s then w.pendingTriggers s c ++ triggers c ops else w.pendingTriggers t c := by
    intro t c
    rw [World.pendingTriggers_enqueue]
    unfold World.pendingTriggers
    rw [ht.streams]
  have hcases : ∀ {t c v}, v ∈ (w'.enqueue s ops).pendingTriggers t c → v ∈ w.pendingTriggers t c ∨
    v ∈ triggers c ops := by
    intro t c v hv
    rw [hpend] at hv
    split at hv
    · rename_i hts
      rw [hts]
      exact List.mem_append.mp hv
    · exact .inl hv
  obtain ⟨es, hlog, hes⟩ := ht.log
  constructor
  case alone =>
    intro c t u htu
    rw [hpend, hpend]
    by_cases hnil : triggers c ops = []
    · have hold := h.alone c t u htu
      rw [hnil, List.append_nil]
      split
      · rename_i hts
        rw [if_neg (by rw [← hts]; exact htu.symm), ← hts]
        exact hold
      · split
        · rename_i hus
          rw [← hus]
          exact hold
        · exact hold
    · -- all that is left of the client stands on `s`
      by_cases hts : t = s
      · right
        rw [if_neg (by rw [← hts]; exact htu.symm)]
        exact halone c hnil u (by rw [← hts]; exact htu.symm)
      · left
        rw [if_neg hts]
        exact halone c hnil t hts
  case rising =>
    intro c t
    rw [hpend]
    split
    · refine List.pairwise_append.mpr ⟨h.rising c s, ht.rising c, fun x hx y hy => ?_⟩
      exact Nat.lt_of_le_of_lt (h.below c s x hx) (ht.above c y hy)
    · exact h.rising c t
  case above =>
    intro c t v hv
    show (w'.clients c).lastTriggerId .tx < v
    rw [ht.trig]
    rcases hcases hv with hv | hv
    · exact h.above c t v hv
    · exact Nat.lt_of_le_of_lt (h.reached c) (ht.above c v hv)
  case below =>
    intro c t v hv
    show v ≤ (w'.clients c).lastPostedTriggerId .tx
    rcases hcases hv with hv | hv
    · exact Nat.le_trans (h.below c t v hv) (ht.le c)
    · exact ht.below c v hv
  case reached =>
    intro c
    show (w'.clients c).lastTriggerId .tx ≤ (w'.clients c).lastPostedTriggerId .tx
    rw [ht.trig]
    exact Nat.le_trans (h.reached c) (ht.le c)
  case came =>
    intro c p op t htr
    rw [World.enqueue_log, hlog] at htr ⊢
    rw [hpend]
    rcases List.mem_append.mp htr with htr | htr
    · rcases h.came c p op t htr with hpnd | hran
      · left
        split
        · rename_i hts
          rw [hts] at hpnd
          exact List.mem_append_left _ hpnd
        · exact hpnd
      · exact .inr (hran.append es)
    · obtain ⟨d, q, o, he, ho⟩ := hes _ htr
      cases he
      left
      rw [if_pos rfl]
      exact List.mem_append_right _ ho
  case numbered =>
    intro t j hj
    have hdone : ((w'.enqueue s ops).streams t).done = (w.streams t).done := by
      rw [World.enqueue_streams, ht.streams]
      split
      · rename_i hts
        rw [hts]
      · rfl
    rw [hdone] at hj
    obtain ⟨o, ho⟩ := h.numbered t j hj
    rw [World.enqueue_log, hlog]
    exact ⟨o, List.mem_append_left _ ho⟩
  case first =>
    rw [World.enqueue_log, hlog]
    refine h.first.append es ?_
    intro c p op trig hm
    obtain ⟨d, q, o, he, -⟩ := hes _ hm
    cases he

end LibMp
