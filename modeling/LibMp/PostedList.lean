import LibMp.Runs
import LibMp.Fifo

/- The free list and the posted lists with event sync.

   One pair of links per request threads the free list and the posted lists of
   all clients. `ListsWf` says that they are well formed and apart, whatever the
   calls return and whatever the streams write to `last_trigger_id`. The posted
   list of a client is a queue: the log of what was tracked and what was handed
   over is its history (`Fifo`). -/
namespace LibMp
variable {cfg : Config}

/-- A handle of `mp_send_prepare` that was not released. -/
def PreparedHandle (w : World) (p : Ptr) : Prop := Live w p ∧ (w.mem p).owner = some .mpSendPrepare

/-- The calls of the library with event sync: the post calls get handles of
prepared sends, in any order and any number of times, the stream waits live
requests. -/
def EventScope : Event → World → Prop
  | .call op _, w =>
    match op with
    | .isend .. | .irecv .. | .isendv .. | .irecvv .. | .iput .. | .iget .. | .sendOnStream .. | .isendOnStream ..
    | .isendvOnStream .. | .sendPrepare .. | .waitAll _ | .progressAll _ | .progress _ => True
    | .sendPost p _ | .isendPost p _ => PreparedHandle w p
    | .sendPostAll ps _ | .isendPostAll ps _ => ∀ p ∈ ps, PreparedHandle w p
    | .waitOnStream p _ => Live w p
    | .waitAllOnStream ps _ => ∀ p ∈ ps, Live w p
    | _ => False
  | .gpu _, _ | .work _ _, _ => True

/-- The sends and receives of these, with the CPU waits and progress. -/
def EventCalls : Event → World → Prop
  | .call op tape, w =>
    match op with
    | .isend .. | .irecv .. | .sendOnStream .. | .isendOnStream .. | .sendPrepare .. | .waitAll _ | .progressAll _
    | .progress _ | .sendPost .. | .isendPost .. | .sendPostAll .. | .isendPostAll .. => EventScope (.call op tape) w
    | _ => False
  | .gpu _, _ | .work _ _, _ => True

theorem EventCalls.scope {ev : Event} {w : World} (h : EventCalls ev w) : EventScope ev w := by
  cases ev with
  | call op tape => cases op <;> first | exact h | exact h.elim
  | gpu | work => trivial

theorem preparedSend_of_owner {w : World} (h : CoreInv cfg ⟨w, none⟩) {p : Ptr}
    (ho : (w.mem p).owner = some .mpSendPrepare) : PreparedSend w p := by
  obtain ⟨fl, pl, h⟩ := h
  obtain ⟨hty, hfl⟩ := h.type_ok p .mpSendPrepare ho
  refine ⟨ho, hty, hfl, ?_⟩
  have := h.flags_ok p .mpSendPrepare ho rfl
  rw [show (w.mem p).flags = 0 from this]
  exact nowait_zero

/-- Arming leaves the requests held. -/
theorem armAll_of_forall {K : Lbl → Mach → Prop} (hK : ∀ c f p a, K (.arm c f p) a) (ps : List Ptr) {a : Mach}
    (ho : ∀ p ∈ ps, (a.w.mem p).owner ≠ none) : ArmAll cfg K a ps := by
  induction ps generalizing a with
  | nil => trivial
  | cons p rest ih =>
    have hrest : ∀ q ∈ rest, (a.w.mem q).owner ≠ none := fun q hq => ho q (List.mem_cons_of_mem p hq)
    refine ⟨ho p List.mem_cons_self, fun c _ _ => ?_⟩
    split
    · refine ⟨hK _ _ _ _, ih fun q hq => ?_⟩
      rw [(Grows.arm a.w c _ p q).2.2.2.2.1]
      exact hrest q hq
    · exact ih hrest

theorem opOk_of_eventScope (he : cfg.useEventSync = true) {w : World} (hc : CoreInv cfg ⟨w, none⟩)
    {op : Op} {tape : List Ans} (h : EventScope (.call op tape) w) : OpOk cfg anyAns anyStep w op := by
  have hne : cfg.useEventSync ≠ false := by rw [he]; decide
  cases op with
  | isend | irecv | isendv | irecvv | iput | iget | isendOnStream | isendvOnStream | waitAll | progressAll | progress =>
    exact trivial
  | sendOnStream => exact fun _ _ _ _ _ => trivial
  | sendPrepare => exact he
  | sendPost p s => exact ⟨he, preparedSend_of_owner hc h.2, fun _ _ _ _ => trivial⟩
  | isendPost p s => exact ⟨he, preparedSend_of_owner hc h.2⟩
  | sendPostAll ps s => exact ⟨he, fun p hp => preparedSend_of_owner hc (h p hp).2, fun _ _ _ _ _ => trivial⟩
  | isendPostAll ps s => exact ⟨he, fun p hp => preparedSend_of_owner hc (h p hp).2⟩
  | waitOnStream p s =>
    exact ⟨fun _ => ⟨(live_iff_owner hc p).mp h, fun _ _ _ _ => trivial⟩, fun hn => absurd hn hne⟩
  | waitAllOnStream ps s =>
    exact ⟨fun _ => armAll_of_forall (fun _ _ _ _ => trivial) ps fun p hp => (live_iff_owner hc p).mp (h p hp),
      fun hn => absurd hn hne⟩
  | _ => exact h.elim

theorem eventScope_moves (he : cfg.useEventSync = true) {ok : Event → World → Prop}
    (hok : ∀ ev w, ok ev w → EventScope ev w) {w : World} (h : Reach cfg ok w) :
    Moves (Move cfg anyAns anyStep) ⟨World.init, none⟩ ⟨w, none⟩ := by
  refine reach_moves (fun w ev hc _ hev ha => ?_) h
  refine event_moves (fun _ _ _ => trivial) (fun _ _ _ => trivial) trivial (fun _ _ _ _ _ => trivial) ?_
    (fun _ _ => trivial) ha
  rintro op tape rfl
  exact ⟨opOk_of_eventScope he hc (hok _ _ hev), fun _ _ => trivial⟩

/-- The invariant of the pool holds along these runs. -/
theorem coreInv_of_eventScope (he : cfg.useEventSync = true) {ok : Event → World → Prop}
    (hok : ∀ ev w, ok ev w → EventScope ev w) {w : World} (h : Reach cfg ok w) : CoreInv cfg ⟨w, none⟩ :=
  coreInv_moves coreInv_init (eventScope_moves he hok h)

/-- A request that is held is live in these runs. -/
theorem live_of_reach (he : cfg.useEventSync = true) {ok : Event → World → Prop}
    (hok : ∀ ev w, ok ev w → EventScope ev w) {w : World} (h : Reach cfg ok w) {p : Ptr}
    (ho : (w.mem p).owner ≠ none) : Live w p :=
  (live_iff_owner (coreInv_of_eventScope he hok h) p).mpr ho

/-! ## The lists -/

/-- The free list is `fl`, the posted list of client `c` is `pl c`. -/
structure ListsWf (cfg : Config) (w : World) (fl : List Ptr) (pl : Nat → List Ptr) : Prop where
  /-- following `next` from `mp_request_free_list` ends after `fl` -/
  free : Linked (fun p => (w.mem p).next) w.mpRequestFreeList fl
  free_nodup : fl.Nodup
  /-- following `next` from the head ends after `pl c` -/
  posted : ∀ c, Linked (fun p => (w.mem p).next) ((w.clients c).postedStreamReq .tx) (pl c)
  nodup : ∀ c, (pl c).Nodup
  tail : ∀ c, (pl c).getLast? = (w.clients c).lastPostedStreamReq .tx
  prev_of_next : ∀ c, ∀ p ∈ pl c, ∀ q, (w.mem p).next = some q → q ∈ pl c ∧ (w.mem q).prev = some p
  next_of_prev : ∀ c, ∀ q ∈ pl c, ∀ p, (w.mem q).prev = some p → p ∈ pl c ∧ (w.mem p).next = some q
  prev_head : ∀ c p, (w.clients c).postedStreamReq .tx = some p → (w.mem p).prev = none
  null_together : ∀ c, (w.clients c).postedStreamReq .tx = none ↔ (w.clients c).lastPostedStreamReq .tx = none
  prepared : ∀ c, ∀ p ∈ pl c, (w.mem p).status = .prepared
  client : ∀ c, ∀ p ∈ pl c, cfg.clientIndex (w.mem p).peer = some c
  sorted : ∀ c, (pl c).Pairwise fun p q => (w.mem p).id < (w.mem q).id
  below : ∀ c, ∀ p ∈ pl c, (w.mem p).id ≤ (w.clients c).lastPostedTriggerId .tx
  not_free : ∀ c, ∀ p ∈ pl c, p ∉ fl
  apart : ∀ c d p, p ∈ pl c → p ∈ pl d → c = d

theorem Core.listsWf {w : World} {cur : Option Cur} {fl : List Ptr} {pl : Nat → List Ptr}
    (h : Core cfg ⟨w, cur⟩ fl pl) : ListsWf cfg w fl pl where
  free := h.free
  free_nodup := h.free_nodup
  posted c := (h.posted c).fwd
  nodup c := h.posted_nodup c
  tail c := (h.posted c).tail_eq
  prev_of_next c p hp q hpq := by
    have hq := (h.posted c).fwd.nxt_mem hp hpq
    exact ⟨hq, ((h.posted c).inverse (h.posted_nodup c) hp hq).mp hpq⟩
  next_of_prev c q hq p hqp := by
    have hp := List.mem_reverse.mp ((h.posted c).bwd.nxt_mem (List.mem_reverse.mpr hq) hqp)
    exact ⟨hp, ((h.posted c).inverse (h.posted_nodup c) hp hq).mpr hqp⟩
  prev_head c p hp := by
    have hd := h.posted c
    simp only [hp] at hd
    obtain ⟨l, hl, -⟩ := hd.fwd.eq_cons
    rw [hl] at hd
    exact hd.prv_head
  null_together c := (h.posted c).head_none_iff
  prepared c p hp := (h.posted_mem c p hp).2.2.1
  client c p hp := (h.posted_mem c p hp).2.1.1
  sorted c := h.posted_sorted c
  below c p hp := (h.posted_mem c p hp).2.2.2.2
  not_free c p hp hf := ((h.owner p).mp (h.posted_mem c p hp).1).2 hf
  apart c d p hc hd := ((h.posted_mem c p hc).2.1.unique (h.posted_mem d p hd).2.1).1

/-- In every reachable world the lists are well formed and apart. -/
theorem lists_well_formed (he : cfg.useEventSync = true) {w : World} (h : Reach cfg EventCalls w) :
    ∃ fl pl, ListsWf cfg w fl pl := by
  obtain ⟨fl, pl, hc⟩ := coreInv_of_eventScope he (fun _ _ hev => hev.scope) h
  exact ⟨fl, pl, hc.listsWf⟩

/-- One peer, of rank 1, with event sync. -/
def eventPeer : Config := { useEventSync := true, peers := [1] }

/-- A send to it on stream 0. -/
def sendOnZero : Event := .call (.isendOnStream 0 8 1 ⟨0⟩ 0) []

/-- A send to the peer that the CPU posts. -/
def isendOne : Event := .call (.isend 0 8 1 ⟨0⟩) []

/-- A wait on stream 1 for request `p`. -/
def waitOnOne (p : Ptr) : Event := .call (.waitOnStream p 1) []

/-- Two sends are on the posted list. -/
theorem lists_well_formed_of_sends :
    ∃ w, Reach eventPeer EventCalls w ∧ (w.clients 0).postedStreamReq .tx = some 0 ∧
      (w.clients 0).lastPostedStreamReq .tx = some 1 ∧ ∃ fl pl, ListsWf eventPeer w fl pl := by
  have hr : Reach eventPeer EventCalls (World.init.after eventPeer [sendOnZero, sendOnZero]) :=
    Reach.init.after eventPeer ⟨trivial, by decide, trivial, by decide, trivial⟩
  exact ⟨_, hr, by decide, by decide, lists_well_formed rfl hr⟩

/-! ## The history of a posted list -/

/-- The requests tracked for client `c`, with their ids, in order. -/
def trackedLog (c : Nat) (log : List LogEv) : List (Ptr × Nat) :=
  log.filterMap fun
    | .tracked d p op _ => if d = c then some (p, op) else none
    | _ => none

/-- The requests the posted list of client `c` handed over, with their ids, in order. -/
def handedLog (c : Nat) (log : List LogEv) : List (Ptr × Nat) :=
  log.filterMap fun
    | .handed d p op _ => if d = c then some (p, op) else none
    | _ => none

/-- The posted list is what was tracked and not yet handed over; ids were
tracked in increasing order, up to the last one stamped. -/
structure PostedHistory (cfg : Config) (a : Mach) (pl : Nat → List Ptr) : Prop where
  fifo : ∀ c, Fifo (trackedLog c a.w.log) (handedLog c a.w.log) ((pl c).map fun p => (p, (a.w.mem p).id))
  sorted : ∀ c, (trackedLog c a.w.log).Pairwise fun x y => x.2 < y.2
  below : ∀ c, ∀ x ∈ trackedLog c a.w.log, x.2 ≤ (a.w.clients c).lastPostedTriggerId .tx
  below_cur : ∀ c f, ∀ x ∈ trackedLog c a.w.log, ∀ k, a.cur = some k → a.w.At cfg k.ptr c f →
    x.2 < (a.w.mem k.ptr).id
  reached : ∀ c p op trig, .handed c p op trig ∈ a.w.log → op ≤ trig

section History
variable {Good : Ans → Prop} {K : Lbl → Mach → Prop} {a b : Mach} {l : Lbl} {fl : List Ptr} {pl : Nat → List Ptr}

/-- What a step adds to the history. -/
theorem trackedLog_step : Step cfg Good l a b → ∀ c,
    trackedLog c b.w.log = trackedLog c a.w.log ++ match l with
      | .track d p _ => if d = c then [(p, (a.w.mem p).id)] else []
      | _ => [] := by
  intro hs c
  rw [step_log hs, trackedLog, List.filterMap_append]
  congr 1
  cases l with
  | track d p s => simp only [Lbl.log, List.filterMap_cons, List.filterMap_nil]; split <;> simp_all
  | gpu s => simp only [Lbl.log]; split <;> (try split) <;> rfl
  | reap d f k => simp only [Lbl.log]; split <;> rfl
  | _ => rfl

theorem handedLog_step : Step cfg Good l a b → ∀ c,
    handedLog c b.w.log = handedLog c a.w.log ++ match l with
      | .handOver d _ p => if d = c then [(p, (a.w.mem p).id)] else []
      | _ => [] := by
  intro hs c
  rw [step_log hs, handedLog, List.filterMap_append]
  congr 1
  cases l with
  | handOver d f p => simp only [Lbl.log, List.filterMap_cons, List.filterMap_nil]; split <;> simp_all
  | gpu s => simp only [Lbl.log]; split <;> (try split) <;> rfl
  | reap d f k => simp only [Lbl.log]; split <;> rfl
  | _ => rfl

/-- The ids of the requests on the posted lists stay. -/
theorem posted_ids (hc : Core cfg a fl pl) (hs : Step cfg Good l a b) {c : Nat} {p : Ptr} (hp : p ∈ pl c) :
    (b.w.mem p).id = (a.w.mem p).id := by
  obtain ⟨ho, -, hst, -⟩ := hc.posted_mem c p hp
  rcases step_held ⟨fl, pl, hc⟩ hs ho with rfl | h
  · cases hs with
    | release hst' => rw [hst] at hst'; cases hst'
  · exact h.2.2.1

/-- What the posted list of `c` becomes, with the ids it had. -/
theorem posted_map (hc : Core cfg a fl pl) (hs : Step cfg Good l a b) (c : Nat) :
    (l.posted pl c).map (fun p => (p, (b.w.mem p).id)) = (l.posted pl c).map fun p => (p, (a.w.mem p).id) := by
  refine List.map_congr_left (fun p hp => ?_)
  cases l with
  | track d q s =>
    by_cases hd : c = d
    · subst hd
      simp only [Lbl.posted, Function.update_self, List.mem_append, List.mem_singleton] at hp
      rcases hp with hp | rfl
      · rw [posted_ids hc hs hp]
      · cases hs with
        | track _ _ _ _ _ =>
          obtain ⟨n, v, hm⟩ := World.append_links (w := _) (c := c) (f := .tx) (p := p) p
          rw [World.addLog_mem, hm]
    · simp only [Lbl.posted, Function.update_of_ne hd] at hp
      rw [posted_ids hc hs hp]
  | handOver d f q =>
    by_cases hd : c = d
    · subst hd
      simp only [Lbl.posted, Function.update_self] at hp
      rw [posted_ids hc hs (List.mem_of_mem_tail hp)]
    · simp only [Lbl.posted, Function.update_of_ne hd] at hp
      rw [posted_ids hc hs hp]
  | _ => rw [posted_ids hc hs hp]

theorem PostedHistory.fifo_step (hc : Core cfg a fl pl) (h : PostedHistory cfg a pl) (hs : Step cfg Good l a b)
    (c : Nat) : Fifo (trackedLog c b.w.log) (handedLog c b.w.log)
      ((l.posted pl c).map fun p => (p, (b.w.mem p).id)) := by
  rw [posted_map hc hs, trackedLog_step hs, handedLog_step hs]
  have hf := h.fifo c
  cases l with
  | track d p s =>
    by_cases hd : d = c
    · subst hd
      simpa [Lbl.posted] using hf.push (p, (a.w.mem p).id)
    · simpa [Lbl.posted, hd, Function.update_of_ne (Ne.symm hd)] using hf
  | handOver d f p =>
    by_cases hd : d = c
    · subst hd
      obtain ⟨rest, hpl⟩ : ∃ rest, pl d = p :: rest := by
        cases hs with
        | handOver _ hp _ _ =>
          obtain ⟨-, rest, hpl, -⟩ := hc.handOver hp
          exact ⟨rest, hpl⟩
      rw [hpl] at hf
      simpa [Lbl.posted, hpl] using hf.pop
    · simpa [Lbl.posted, hd, Function.update_of_ne (Ne.symm hd)] using hf
  | _ => simpa [Lbl.posted] using hf

/-- Below the request in hand: what was tracked for its client. -/
theorem PostedHistory.below_cur_step (hc : Core cfg a fl pl) (h : PostedHistory cfg a pl) (hs : Step cfg Good l a b)
    (c : Nat) (f : Flow) {x : Ptr × Nat} (hx : x ∈ trackedLog c a.w.log) {k : Cur} (hk : b.cur = some k)
    (hat : b.w.At cfg k.ptr c f) : x.2 < (b.w.mem k.ptr).id := by
  rcases step_hand hs hk with ⟨k', hk', hptr, -⟩ | ⟨fn, d, rfl, hptr⟩ | ⟨d, rfl, -⟩
  · obtain ⟨ho, -⟩ := hc.cur_ok k' hk'
    rw [← hptr] at hat ⊢
    rcases step_held ⟨fl, pl, hc⟩ hs ho with rfl | ⟨h1, h2, h3, -⟩
    · cases hs; cases hk'
    · rw [h3]
      refine h.below_cur c f x hx k' hk' ?_
      rw [World.At, h1, h2] at hat
      exact hat
  · obtain ⟨hpeer, hid, -⟩ := step_taken hs
    rw [hptr] at hat ⊢
    obtain rfl : d = c := Option.some.inj (hpeer.symm.trans hat.1)
    have h1 := h.below d x hx
    have h2 := hc.posted_le d
    omega
  · cases hs with
    | stamp _ hat' hp =>
      obtain ⟨rfl, -⟩ := hat'.unique hat
      rcases hp with hcur | ⟨-, -, hlt⟩
      · exact h.below_cur d .tx x hx ⟨k.ptr, .prepared, true⟩ hcur hat'
      · exact Nat.lt_of_le_of_lt (h.below d x hx) hlt

theorem PostedHistory.below_step (hc : Core cfg a fl pl) (h : PostedHistory cfg a pl) (hs : Step cfg Good l a b)
    (c : Nat) {x : Ptr × Nat} (hx : x ∈ trackedLog c a.w.log) : x.2 ≤ (b.w.clients c).lastPostedTriggerId .tx := by
  rw [step_lastPostedTriggerId hs]
  have hle := h.below c x hx
  cases l with
  | stamp d p =>
    dsimp only
    split
    · rename_i hd
      subst hd
      cases hs with
      | stamp _ hat hp =>
        rcases hp with hcur | ⟨-, -, hlt⟩
        · exact Nat.le_of_lt (h.below_cur c .tx x hx _ hcur hat)
        · exact Nat.le_trans hle (Nat.le_of_lt hlt)
    · exact hle
  | _ => exact hle

theorem PostedHistory.step (hc : Core cfg a fl pl) (h : PostedHistory cfg a pl) (hs : Step cfg Good l a b) :
    PostedHistory cfg b (l.posted pl) where
  fifo c := h.fifo_step hc hs c
  sorted c := by
    rw [trackedLog_step hs]
    cases l with
    | track d p s =>
      dsimp only
      split
      · rename_i hd
        subst hd
        refine List.pairwise_append.mpr ⟨h.sorted d, List.pairwise_singleton _ _, fun x hx y hy => ?_⟩
        rw [List.mem_singleton] at hy
        subst hy
        cases hs with
        | track _ hat _ _ _ => exact h.below_cur d .tx x hx _ rfl hat
      · simpa using h.sorted c
    | _ => simpa using h.sorted c
  below c x hx := by
    rw [trackedLog_step hs] at hx
    rcases List.mem_append.mp hx with hold | hnew
    · exact h.below_step hc hs c hold
    · clear hx
      cases l with
      | track d p s =>
        dsimp only at hnew
        split at hnew
        · rename_i hd
          subst hd
          obtain rfl := List.mem_singleton.mp hnew
          rw [step_lastPostedTriggerId hs]
          cases hs with
          | track _ _ _ htrig _ => exact Nat.le_of_eq htrig.symm
        · cases hnew
      | _ => cases hnew
  below_cur c f x hx k hk hat := by
    rw [trackedLog_step hs] at hx
    rcases List.mem_append.mp hx with hold | hnew
    · exact h.below_cur_step hc hs c f hold hk hat
    · clear hx
      cases l with
      | track => cases hs; cases hk
      | _ => cases hnew
  reached c p op trig hm := by
    rw [step_log hs] at hm
    rcases List.mem_append.mp hm with hold | hnew
    · exact h.reached c p op trig hold
    · clear hm
      cases hs with
      | handOver _ _ hid _ =>
        simp only [Lbl.log, List.mem_cons, List.not_mem_nil, or_false, reduceCtorEq, false_or] at hnew
        cases hnew
        exact hid
      | gpu =>
        obtain ⟨o, rest, -, -, he⟩ := mem_log_gpu hnew
        cases he
      | reap =>
        obtain ⟨wr, -, he⟩ := mem_log_reap hnew
        cases he
      | _ => simp [Lbl.log] at hnew

theorem postedHistory_moves (hc : Core cfg a fl pl) (h : PostedHistory cfg a pl) (hm : Moves (Move cfg Good K) a b) :
    ∃ fl' pl', Core cfg b fl' pl' ∧ PostedHistory cfg b pl' :=
  Moves.inv (I := fun a => ∃ fl pl, Core cfg a fl pl ∧ PostedHistory cfg a pl) (fun a b ⟨fl, pl, hc, h⟩ ⟨l, _, hs⟩ => by
    obtain ⟨fl', hc'⟩ := hc.step_posted hs
    exact ⟨fl', _, hc', h.step hc hs⟩) hm ⟨fl, pl, hc, h⟩

end History

/-- The history of the posted lists, in any run of the calls with event sync. -/
theorem postedHistory_of_reach (he : cfg.useEventSync = true) {ok : Event → World → Prop}
    (hok : ∀ ev w, ok ev w → EventScope ev w) {w : World} (h : Reach cfg ok w) :
    ∃ fl pl, Core cfg ⟨w, none⟩ fl pl ∧ PostedHistory cfg ⟨w, none⟩ pl := by
  obtain ⟨fl, hc⟩ := Core.init cfg
  have hinit : PostedHistory cfg ⟨World.init, none⟩ fun _ => [] := by
    constructor <;> simp [World.init, World.empty, World.allocateRequests, trackedLog, handedLog, Fifo]
  exact postedHistory_moves hc hinit (eventScope_moves he hok h)

/-- The posted list of a client hands its requests over in the order in which
they were tracked: ids increase, so no request goes twice; none goes before
`last_trigger_id` has reached its id; and what was tracked with a smaller id
went before. -/
theorem handed_in_order (he : cfg.useEventSync = true) {w : World} (h : Reach cfg EventCalls w) (c : Nat) :
    (handedLog c w.log).Pairwise (fun x y => x.2 < y.2) ∧
    (∀ p op trig, .handed c p op trig ∈ w.log → op ≤ trig) ∧
    ∀ l₁ l₂ x, handedLog c w.log = l₁ ++ x :: l₂ → ∀ y ∈ trackedLog c w.log, y.2 < x.2 → y ∈ l₁ := by
  obtain ⟨fl, pl, -, hp⟩ := postedHistory_of_reach he (fun _ _ hev => hev.scope) h
  refine ⟨(hp.fifo c).popped_sorted (hp.sorted c), fun p op trig hm => hp.reached c p op trig hm, ?_⟩
  intro l₁ l₂ x heq y hy hyx
  have hf := hp.fifo c
  rw [show handedLog c w.log = l₁ ++ x :: l₂ from heq] at hf
  exact hf.popped_before (hp.sorted c) (fun _ _ h => Nat.lt_asymm h) hy hyx

/-- Two sends are tracked, stream 0 runs, and the first one is handed over. -/
theorem handed_in_order_of_sends :
    ∃ w, Reach eventPeer EventCalls w ∧ trackedLog 0 w.log = [(0, 1), (1, 2)] ∧ handedLog 0 w.log = [(0, 1)] ∧
      ∀ p op trig, .handed 0 p op trig ∈ w.log → op ≤ trig := by
  have hr : Reach eventPeer EventCalls
      (World.init.after eventPeer [sendOnZero, sendOnZero, .gpu (.run 0), .call (.progress .tx) []]) :=
    Reach.init.after eventPeer ⟨trivial, by decide, trivial, by decide, trivial, by decide, trivial, by decide, trivial⟩
  exact ⟨_, hr, by decide, by decide, (handed_in_order rfl hr 0).2.1⟩

end LibMp
