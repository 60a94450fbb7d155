import LibMp.Posting
import LibMp.WaitAll

/- Requests that were recorded when they were posted, without event sync: what
   progress, waits and posts leave of them, and what `mp_wait_all` on them does
   when the outside makes no errors.

   `Recorded`: the request is still the operation that was recorded, it can be
   waited for, and unless it is complete its completion is outstanding. Nothing
   ends that but a release of the request itself. -/
namespace LibMp
variable {cfg : Config}

/-! ## Programs whose calls to the outside all succeed -/

/-- With answers that are all successes, the program returns something that
satisfies `P`, or stops in one of the ways of `S`. -/
def Ends {α : Type} (S : Stop → Prop) (P : α → Prop) (m : M α) : Prop :=
  ∀ s, Succeeds s.tape → match m s with
    | (.ok x, s') => P x ∧ Succeeds s'.tape
    | (.error e, _) => S e

namespace Ends
variable {α β : Type} {S : Stop → Prop} {P : α → Prop} {Q : β → Prop}

theorem pure {x : α} (h : P x) : Ends S P (Pure.pure x : M α) := fun _ hs => ⟨h, hs⟩

theorem bind {m : M α} {f : α → M β} (hm : Ends S P m) (hf : ∀ x, P x → Ends S Q (f x)) : Ends S Q (m >>= f) := by
  intro s hs
  have h₁ := hm s hs
  rw [Prog.bind_run]
  cases hr : m s with
  | mk r s' =>
    rw [hr] at h₁
    cases r with
    | ok x => exact hf x h₁.1 s' h₁.2
    | error e => exact h₁

theorem stop {e : Stop} (h : S e) : Ends S P (Prog.stop e : M α) := fun _ _ => h

theorem require {b : Bool} {e : Stop} (h : S e) : Ends S (fun _ => True) (Prog.require b e : M Unit) := by
  cases b with
  | true => exact fun _ hs => ⟨trivial, hs⟩
  | false => exact fun _ _ => h

theorem ite {c : Prop} [Decidable c] {m₁ m₂ : M α} (h₁ : c → Ends S P m₁) (h₂ : ¬ c → Ends S P m₂) :
    Ends S P (if c then m₁ else m₂) := by
  split
  · exact h₁ ‹_›
  · exact h₂ ‹_›

theorem get : Ends S (fun _ => True) (Prog.get : M Sys) := fun _ hs => ⟨trivial, hs⟩

theorem update (g : World → World) : Ends S (fun _ => True) (LibMp.update g) := fun _ hs => ⟨trivial, hs⟩

theorem world : Ends S (fun _ => True) LibMp.world := fun _ hs => ⟨trivial, hs⟩

theorem request (p : Ptr) : Ends S (fun _ => True) (LibMp.request p) := fun _ hs => ⟨trivial, hs⟩

theorem client (c : Nat) : Ends S (fun _ => True) (LibMp.client c) := fun _ hs => ⟨trivial, hs⟩

theorem answer : Ends S (fun a => a.rc = 0) LibMp.answer := by
  rintro ⟨w, tape⟩ hs
  cases tape with
  | nil => exact ⟨rfl, hs⟩
  | cons a rest => exact ⟨hs a List.mem_cons_self, hs.tail⟩

theorem streamsRun : Ends S (fun _ => True) LibMp.streamsRun :=
  bind answer fun _ _ => update _

end Ends

/-- How progress can stop. -/
def InProgress (e : Stop) : Prop := e = .spinning ∨ e = .exitStatus ∨ e = .assertTracked

theorem ends_canPollFrom (c : Nat) (f : Flow) (fuel : Nat) (p : Option Ptr) (n : Nat) :
    Ends InProgress (fun _ => True) (canPollFrom cfg c f fuel p n) := by
  induction fuel generalizing p n with
  | zero =>
    cases p with
    | none => exact .pure trivial
    | some p => exact .stop (.inl rfl)
  | succ fuel ih =>
    cases p with
    | none => exact .pure trivial
    | some p =>
      unfold canPollFrom
      refine .bind (.client c) fun _ _ => .bind (.request p) fun _ _ => ?_
      exact .ite (fun _ => .pure trivial) (fun _ => ih _ _)

theorem ends_progressCompletions (c : Nat) (f : Flow) (ks : List Nat) :
    Ends InProgress (fun _ => True) (progressCompletions cfg c f ks) := by
  induction ks with
  | nil => exact .pure trivial
  | cons k rest ih =>
    unfold progressCompletions progressCompletion
    refine .bind (P := fun _ => True) (.bind .world fun w _ => ?_) fun _ _ => .bind .streamsRun fun _ _ => ih
    split
    · exact .pure trivial
    · refine .bind (.require (.inr (.inl rfl))) fun _ _ => ?_
      exact .bind (.require (.inr (.inr rfl))) fun _ _ => .update _

theorem ends_pollClients (he : cfg.useEventSync = false) (f : Flow) (cs : List Nat) :
    Ends InProgress (· = 0) (pollClients cfg f cs) := by
  induction cs with
  | nil => exact .pure rfl
  | cons c rest ih =>
    unfold pollClients pollClient clientCanPoll
    rw [he]
    refine .bind (P := (· = 0)) (.bind (P := fun _ => True) ?_ fun n _ => ?_) fun ret hret => ?_
    · exact .bind .world fun w _ => ends_canPollFrom c f _ _ _
    · dsimp only
      refine .ite (fun _ => .pure rfl) (fun _ => .bind .answer fun a ha => .bind (.update _) fun _ _ => ?_)
      refine .ite (fun hneg => ?_) (fun _ => .bind (ends_progressCompletions c f _) fun _ _ => .pure rfl)
      rw [ha] at hneg
      cases hneg
    · exact .ite (fun hne => absurd hret hne) (fun _ => ih)

theorem ends_mpProgressSingleFlow (he : cfg.useEventSync = false) (f : Flow) :
    Ends InProgress (· = 0) (mpProgressSingleFlow cfg f) := by
  unfold mpProgressSingleFlow progressPostedList
  rw [he]
  exact .bind (P := fun _ => True) (.pure trivial) fun _ _ => ends_pollClients he f _

theorem ends_spin (he : cfg.useEventSync = false) (p : Ptr) (fuel : Nat) :
    Ends InProgress (· = 0) (spin cfg p fuel) := by
  induction fuel with
  | zero => exact .stop (.inl rfl)
  | succ fuel ih =>
    unfold spin
    refine .bind (.request p) fun r _ => .ite (fun _ => .pure rfl) (fun _ => ?_)
    refine .bind (ends_mpProgressSingleFlow he .tx) fun r₁ h₁ => .ite (fun hne => absurd h₁ hne) (fun _ => ?_)
    refine .bind (ends_mpProgressSingleFlow he .rx) fun r₂ h₂ => .ite (fun hne => absurd h₂ hne) (fun _ => ?_)
    refine .bind (P := fun _ => True) (.bind .answer fun _ _ => .pure trivial) fun late _ => .ite (fun _ => ?_)
      (fun _ => ih)
    refine .bind (P := (· = 0)) (.bind (P := (· = 0)) (.bind .answer fun a ha => .pure ha) fun rc hrc => .pure ?_)
      fun rc hrc => .ite (fun hne => absurd hrc hne) (fun _ => ih)
    rw [if_pos hrc]

theorem ends_spinAll (he : cfg.useEventSync = false) (ps : List Ptr) : Ends InProgress (· = 0) (spinAll cfg ps) := by
  induction ps with
  | nil => exact .pure rfl
  | cons p rest ih =>
    unfold spinAll
    refine .bind .get fun s _ => .bind (ends_spin he p _) fun ret hret => ?_
    exact .ite (fun hne => absurd hret hne) (fun _ => ih)

/-! ## Recorded requests -/

/-- The request at `p` is still the operation `op` of `peer`. -/
structure Recorded (w : World) (p : Ptr) (peer op : Nat) : Prop where
  owner : (w.mem p).owner ≠ none
  same_peer : (w.mem p).peer = peer
  same_op : (w.mem p).id = op
  waitable : nowait (w.mem p).flags = false
  state : (w.mem p).status = .complete ∨ (w.mem p).status.isPending ∧ ∃ c f, ⟨p, op⟩ ∈ w.cq c f

namespace Recorded
variable {w w' : World} {p : Ptr} {peer op : Nat}

/-- A step that leaves the operation alone, its status and its completion. -/
theorem keep (h : Recorded w p peer op) (hm : (w.mem p).Unchanged (w'.mem p))
    (hcq : ∀ c f, ⟨p, op⟩ ∈ w.cq c f → ⟨p, op⟩ ∈ w'.cq c f) : Recorded w' p peer op := by
  obtain ⟨⟨-, m2, m3, m4, m5, -⟩, m7⟩ := hm
  refine ⟨?_, m2.trans h.same_peer, m3.trans h.same_op, ?_, ?_⟩
  · rw [m5]
    exact h.owner
  · rw [m7]
    exact h.waitable
  · rw [m4]
    rcases h.state with hc | ⟨hp, c, f, hmem⟩
    · exact .inl hc
    · exact .inr ⟨hp, c, f, hcq c f hmem⟩

/-- A request that is posted now is another one. -/
theorem posted (h : Recorded w p peer op) (hc : CoreInv cfg ⟨w, none⟩) {q : Ptr} {c : Nat} {f : Flow} {fl : Nat}
    (hq : NewRequest cfg w w' q c f fl) : Recorded w' p peer op ∧ p ≠ q := by
  have hne : p ≠ q := by
    intro he
    have ho := h.owner
    rw [he, hq.ptr] at ho
    exact ho (nextFree_free hc).1
  refine ⟨h.keep (hq.rest p hne) (fun d g hmem => ?_), hne⟩
  rw [hq.cq d g]
  split
  · rename_i hdg
    rw [hdg.1, hdg.2.1] at hmem
    exact List.mem_append_left _ hmem
  · exact hmem

end Recorded

/-- What is recorded of a request that was posted now. -/
theorem NewRequest.recorded {w w' : World} {p : Ptr} {c : Nat} {f : Flow} {fl : Nat} (h : NewRequest cfg w w' p c f fl)
    (hn : nowait fl = false) : Recorded w' p (w'.mem p).peer (w'.mem p).id := by
  refine ⟨h.owner, rfl, rfl, by rw [h.flags]; exact hn, .inr ⟨?_, c, f, ?_⟩⟩
  · rw [h.status]
    trivial
  · rw [h.cq c f, if_pos ⟨rfl, rfl, hn⟩]
    exact List.mem_append_right _ List.mem_cons_self

/-! ## Progress -/

/-- Without event sync, progress changes a request only where it finds its
completion. -/
theorem progress_mem (he : cfg.useEventSync = false) {l : Lbl} {a b : Mach} (hl : l.Progress)
    (hs : Step cfg (fun _ => True) l a b) (q : Ptr) :
    ((b.w.mem q = a.w.mem q ∧ ∀ op c f, ⟨q, op⟩ ∈ a.w.cq c f → ⟨q, op⟩ ∈ b.w.cq c f) ∨
      b.w.mem q = { a.w.mem q with status := .complete, sgv := none }) := by
  cases hs with
  | @reap w cur c f k wr _ hk hp =>
    by_cases hq : q = wr.wrId
    · right
      rw [World.complete_mem cfg hp, if_pos hq]
    · left
      refine ⟨by rw [World.complete_mem cfg hp, if_neg hq], fun op d g hmem => ?_⟩
      rw [World.complete_cq]
      split
      · rename_i hdg
        rw [hdg.1, hdg.2] at hmem
        obtain ⟨i, hi⟩ := List.mem_iff_getElem?.mp hmem
        refine List.mem_eraseIdx_iff_getElem?.mpr ⟨i, fun hik => ?_, hi⟩
        rw [hik, hk] at hi
        cases hi
        exact hq rfl
      · exact hmem
  | handOver hev => rw [he] at hev; cases hev
  | @gpu w cur s =>
    left
    have hcq : (w.gpuStep s).cq = w.cq := (SameCore.gpuStep w s).cq
    exact ⟨by rw [World.gpuStep_mem], fun op d g hmem => by rw [hcq]; exact hmem⟩
  | store => exact .inl ⟨rfl, fun _ _ _ hmem => hmem⟩
  | _ => exact hl.elim

theorem recorded_progress (he : cfg.useEventSync = false) {a b : Mach} (hm : ProgressMoves cfg a b) {p : Ptr}
    {peer op : Nat} (h : Recorded a.w p peer op) : Recorded b.w p peer op := by
  refine Moves.inv (I := fun d : Mach => Recorded d.w p peer op) ?_ hm h
  rintro d e hd ⟨l, hl, hs⟩
  rcases progress_mem he hl hs p with ⟨hmem, hcq⟩ | hmem
  · refine hd.keep ?_ (fun c f => hcq op c f)
    rw [hmem]
    exact .refl _
  · refine ⟨?_, ?_, ?_, ?_, .inl ?_⟩ <;> rw [hmem]
    · exact hd.owner
    · exact hd.same_peer
    · exact hd.same_op
    · exact hd.waitable

/-- Nor does progress take or put back a request. -/
theorem owner_progress (he : cfg.useEventSync = false) {a b : Mach} (hm : ProgressMoves cfg a b) (q : Ptr) :
    (b.w.mem q).owner = (a.w.mem q).owner := by
  refine Moves.inv (I := fun d : Mach => (d.w.mem q).owner = (a.w.mem q).owner) ?_ hm rfl
  rintro d e hd ⟨l, hl, hs⟩
  rcases progress_mem he hl hs q with ⟨hmem, -⟩ | hmem <;> rw [hmem, ← hd]

/-! ## Waits on the CPU -/

/-- What the first loop of `mp_wait_all` does: requests become pending, and
nothing else happens. -/
structure WaitsPosted (w w' : World) : Prop where
  cq : w'.cq = w.cq
  mem : ∀ q, w'.mem q = w.mem q ∨
    (w.mem q).status = .pendingNowait ∧ w'.mem q = { w.mem q with stream := none, status := .pending }

namespace WaitsPosted
variable {w w₁ w₂ : World}

theorem refl : WaitsPosted w w := ⟨rfl, fun _ => .inl rfl⟩

theorem trans (h₁ : WaitsPosted w w₁) (h₂ : WaitsPosted w₁ w₂) : WaitsPosted w w₂ := by
  refine ⟨h₂.cq.trans h₁.cq, fun q => ?_⟩
  rcases h₁.mem q with hq | ⟨hst, hq⟩
  · rw [← hq]
    exact h₂.mem q
  · right
    rcases h₂.mem q with hq' | ⟨hst', -⟩
    · exact ⟨hst, hq'.trans hq⟩
    · rw [hq] at hst'
      cases hst'

theorem owner (h : WaitsPosted w w₁) (q : Ptr) : (w₁.mem q).owner = (w.mem q).owner := by
  rcases h.mem q with hq | ⟨-, hq⟩ <;> rw [hq]

theorem recorded (h : WaitsPosted w w₁) {p : Ptr} {peer op : Nat} (hp : Recorded w p peer op) :
    Recorded w₁ p peer op := by
  rcases h.mem p with hq | ⟨hst, hq⟩
  · refine hp.keep ?_ (fun c f hmem => by rw [h.cq]; exact hmem)
    rw [hq]
    exact .refl _
  · refine ⟨?_, ?_, ?_, ?_, .inr ⟨?_, ?_⟩⟩
    · rw [hq]
      exact hp.owner
    · rw [hq]
      exact hp.same_peer
    · rw [hq]
      exact hp.same_op
    · rw [hq]
      exact hp.waitable
    · rw [hq]
      trivial
    · rcases hp.state with hc | ⟨-, hcq⟩
      · rw [hst] at hc
        cases hc
      · rw [h.cq]
        exact hcq

/-- One turn of the loop. -/
theorem one {p : Ptr} (hst : (w.mem p).status = .pendingNowait) :
    WaitsPosted w ((w.give p).setReq p fun r => { r with stream := none, status := .pending }) := by
  refine ⟨rfl, fun q => ?_⟩
  exact (w.give p).setReq_rel (R := fun r r' => r' = r ∨
    r.status = .pendingNowait ∧ r' = { r with stream := none, status := .pending }) (fun _ => .inl rfl) (.inr ⟨hst, rfl⟩) q

end WaitsPosted

theorem postWaits_posted (ps : List Ptr) {s s' : Sys} {ret : Int} (h : postWaits cfg ps s = (.ok ret, s')) :
    WaitsPosted s.w s'.w := by
  induction ps generalizing s with
  | nil =>
    cases h
    exact .refl
  | cons p rest ih =>
    obtain rfl | hrest | ⟨hst, hgive | ⟨s₁, hw, hrest⟩⟩ := postWaits_cons_ok h
    · exact .refl
    · exact ih hrest
    · rw [hgive]
      exact ⟨rfl, fun _ => .inl rfl⟩
    · have hone := WaitsPosted.one hst
      rw [← hw] at hone
      exact hone.trans (ih hrest)

/-- One turn of the first loop, for a recorded request: its CQ wait is posted,
or was posted before. -/
theorem postWaits_turn {w : World} (hc : CoreInv cfg ⟨w, none⟩) {p : Ptr} {peer op : Nat} (hp : Recorded w p peer op)
    (rest : List Ptr) :
    (∀ tape, postWaits cfg (p :: rest) ⟨w, tape⟩ = postWaits cfg rest ⟨w, tape⟩) ∨
    ∃ w', WaitsPosted w w' ∧ Runs cfg w w' ∧ ∀ tape, Succeeds tape →
      postWaits cfg (p :: rest) ⟨w, tape⟩ = postWaits cfg rest ⟨w', tape.tail⟩ := by
  obtain ⟨fl, pl, hcore⟩ := hc
  have hty : (w.mem p).type ≠ .null := by
    obtain ⟨fn, hfn⟩ := Option.ne_none_iff_exists'.mp hp.owner
    exact (hcore.type_ok p fn hfn).1
  have hwait : (w.mem p).canBeWaited = true := by
    unfold Request.canBeWaited
    rw [hp.waitable]
    cases htype : (w.mem p).type with
    | null => exact absurd htype hty
    | _ => rfl
  by_cases hst : (w.mem p).status = .pendingNowait
  · right
    -- it is outstanding, so its completion stands in the queue of a client
    have hcl : ∃ c, cfg.clientIndex (w.mem p).peer = some c := by
      rcases hp.state with hcomp | ⟨-, c, f, hmem⟩
      · rw [hst] at hcomp
        cases hcomp
      · exact ⟨c, (hcore.cq_mem c f _ hmem).2.1.1⟩
    obtain ⟨c, hclient⟩ := hcl
    have hgiven : Runs cfg w (w.give p) := .one .give
    have hwaits : Runs cfg (w.give p) ((w.give p).setReq p fun r => { r with stream := none, status := .pending }) :=
      .one (.waitCpu hst)
    refine ⟨_, .one hst, hgiven.trans hwaits, fun tape ht => ?_⟩
    rw [postWaits, Prog.bind_ok (request_run p w tape), Prog.bind_ok (require_run (decide_eq_true hty) _ _), hwait,
      if_neg (by decide)]
    dsimp only
    rw [if_pos hst, Prog.bind_ok (clientOf_run hclient _), Prog.bind_ok (gdsPostWaitCq_run ht p w), if_neg (by decide),
      Prog.bind_ok (update_run _ _ _)]
  · left
    intro tape
    rw [postWaits, Prog.bind_ok (request_run p w tape), Prog.bind_ok (require_run (decide_eq_true hty) _ _), hwait,
      if_neg (by decide)]
    dsimp only
    rw [if_neg hst]

/-- Recorded requests can all be waited for: the loop takes the first answers
and returns 0. -/
theorem postWaits_run (ps : List Ptr) {w : World} (hc : CoreInv cfg ⟨w, none⟩)
    (hps : ∀ p ∈ ps, ∃ peer op, Recorded w p peer op) :
    ∃ n w', WaitsPosted w w' ∧ Runs cfg w w' ∧ ∀ tape, Succeeds tape →
      postWaits cfg ps ⟨w, tape⟩ = (.ok 0, ⟨w', tape.drop n⟩) := by
  induction ps generalizing w with
  | nil => exact ⟨0, w, .refl, .refl w, fun _ _ => rfl⟩
  | cons p rest ih =>
    obtain ⟨peer, op, hp⟩ := hps p List.mem_cons_self
    have hrest : ∀ q ∈ rest, ∃ peer op, Recorded w q peer op := fun q hq => hps q (List.mem_cons_of_mem p hq)
    rcases postWaits_turn hc hp rest with hturn | ⟨w₁, hposted, hruns, hturn⟩
    · obtain ⟨n, w', h₁, h₂, h₃⟩ := ih hc hrest
      refine ⟨n, w', h₁, h₂, fun tape ht => ?_⟩
      rw [hturn]
      exact h₃ tape ht
    · have hrest₁ : ∀ q ∈ rest, ∃ peer op, Recorded w₁ q peer op := by
        intro q hq
        obtain ⟨peer', op', hq'⟩ := hrest q hq
        exact ⟨peer', op', hposted.recorded hq'⟩
      obtain ⟨n, w', h₁, h₂, h₃⟩ := ih (hruns.core hc) hrest₁
      refine ⟨n + 1, w', hposted.trans h₁, hruns.trans h₂, fun tape ht => ?_⟩
      rw [hturn tape ht, h₃ _ ht.tail, ← List.drop_one, List.drop_drop, Nat.add_comm]

/-- What the release loop does to the requests. -/
theorem releaseAll_mem (ps : List Ptr) {ret r : Int} {s s' : Sys} (h : releaseAll ret ps s = (.ok r, s')) :
    s'.w.cq = s.w.cq ∧ ∀ q, (s'.w.mem q = s.w.mem q ∧ (q ∈ ps → (s.w.mem q).status ≠ .complete)) ∨
      q ∈ ps ∧ (s'.w.mem q).owner = none := by
  induction ps generalizing ret s with
  | nil =>
    cases h
    exact ⟨rfl, fun _ => .inl ⟨rfl, fun hq => by cases hq⟩⟩
  | cons p rest ih =>
    rw [releaseAll] at h
    obtain ⟨r₀, s₁, h₁, h₂⟩ := Prog.bind_eq_ok h
    obtain ⟨rfl, rfl⟩ := request_ok h₁
    split at h₂
    · obtain ⟨_, s₂, h₃, h₄⟩ := Prog.bind_eq_ok h₂
      obtain rfl := update_ok h₃
      obtain ⟨hcq, hmem⟩ := ih h₄
      refine ⟨hcq, fun q => ?_⟩
      -- whatever the rest of the loop does, `p` is not put back again
      rcases hmem q with ⟨hq, hst⟩ | ⟨hq, ho⟩
      · by_cases hqp : q = p
        · right
          refine ⟨hqp ▸ List.mem_cons_self, ?_⟩
          rw [hq, hqp]
          simp [World.release]
        · left
          have hrel : (s₁.w.release p).mem q = s₁.w.mem q := by simp [World.release, hqp]
          refine ⟨hq.trans hrel, fun hmem => ?_⟩
          rw [← hrel]
          exact hst ((List.mem_cons.mp hmem).resolve_left hqp)
      · exact .inr ⟨List.mem_cons_of_mem p hq, ho⟩
    · rename_i hp
      obtain ⟨hcq, hmem⟩ := ih h₂
      refine ⟨hcq, fun q => ?_⟩
      rcases hmem q with ⟨hq, hst⟩ | ⟨hq, ho⟩
      · refine .inl ⟨hq, fun hmem => ?_⟩
        rcases List.mem_cons.mp hmem with rfl | hmem
        · exact hp
        · exact hst hmem
      · exact .inr ⟨List.mem_cons_of_mem p hq, ho⟩

/-- What a call of `mp_wait_all` that comes back leaves of the requests it was
not given. -/
theorem mpWaitAll_others (he : cfg.useEventSync = false) {ps : List Ptr} {w : World} {tape : List Ans} {ret : Int}
    {s' : Sys} (h : mpWaitAll cfg ps ⟨w, tape⟩ = (.ok ret, s')) {q : Ptr} (hq : q ∉ ps) :
    (s'.w.mem q).owner = (w.mem q).owner ∧ ∀ peer op, Recorded w q peer op → Recorded s'.w q peer op := by
  rw [mpWaitAll] at h
  obtain ⟨r₁, s₁, h₁, h₂⟩ := Prog.bind_eq_ok h
  have hposted := postWaits_posted ps h₁
  split at h₂
  · cases h₂
    exact ⟨hposted.owner q, fun _ _ hr => hposted.recorded hr⟩
  obtain ⟨r₂, s₂, h₃, h₄⟩ := Prog.bind_eq_ok h₂
  obtain ⟨b, hb, hm⟩ := spinAll_moves (.inr ⟨r₂, rfl⟩) h₃
  have hspun : (s₂.w.mem q).owner = (w.mem q).owner ∧ ∀ peer op, Recorded w q peer op → Recorded s₂.w q peer op := by
    rw [← hb]
    refine ⟨(owner_progress he hm q).trans (hposted.owner q), fun _ _ hr => ?_⟩
    exact recorded_progress he hm (hposted.recorded hr)
  split at h₄
  · cases h₄
    exact hspun
  obtain ⟨hcq, hmem⟩ := releaseAll_mem ps h₄
  have hsame : s'.w.mem q = s₂.w.mem q := ((hmem q).resolve_right fun hh => hq hh.1).1
  refine ⟨by rw [hsame]; exact hspun.1, fun peer op hr => ?_⟩
  refine (hspun.2 peer op hr).keep ?_ (fun c f hmem => by rw [hcq]; exact hmem)
  rw [hsame]
  exact .refl _

/-- A call of `mp_wait_all` that returns 0 has put back what it was given. -/
theorem mpWaitAll_frees (he : cfg.useEventSync = false) {ps : List Ptr} {s s' : Sys}
    (h : mpWaitAll cfg ps s = (.ok 0, s')) : ∀ p ∈ ps, (s'.w.mem p).owner = none := by
  intro p hp
  rw [mpWaitAll] at h
  obtain ⟨s₁, h₁, h₂⟩ := Prog.andThen_ok h
  obtain ⟨s₂, h₃, h₄⟩ := Prog.andThen_ok h₂
  rcases (releaseAll_mem ps h₄).2 p with ⟨-, hst⟩ | ⟨-, ho⟩
  · exact absurd (spinAll_complete he ps h₃ p hp) (hst hp)
  · exact ho

theorem mpWaitAll_runs {ps : List Ptr} {w : World} {tape : List Ans} {ret : Int} {s' : Sys}
    (h : mpWaitAll cfg ps ⟨w, tape⟩ = (.ok ret, s')) : Runs cfg w s'.w := by
  have hf : Follows cfg anyAns anyStep ⟨w, none⟩ (mpWaitAll cfg ps) (fun _ b => b.cur = none) :=
    follows_mpWaitAll (fun _ _ _ => trivial) trivial ps _ rfl
  obtain ⟨⟨v, cur⟩, hm, hR, hcur⟩ := hf.ok ⟨rfl, fun _ _ => trivial⟩ h
  obtain rfl : cur = none := hcur
  rw [← hR.1]
  exact hm

/-- While recorded requests are waited for, nothing but waiting can happen. -/
theorem spinAll_recorded (he : cfg.useEventSync = false) (ps : List Ptr) {s : Sys} (hc : CoreInv cfg ⟨s.w, none⟩)
    (ht : Succeeds s.tape) : (∃ s', spinAll cfg ps s = (.ok 0, s')) ∨
      ∃ s', spinAll cfg ps s = (.error .spinning, s') := by
  have hends := ends_spinAll he ps s ht
  have hf : Follows cfg anyAns anyStep ⟨s.w, none⟩ (spinAll cfg ps) (fun _ b => Keeps ⟨s.w, none⟩ b) :=
    follows_spinAll (fun _ _ _ => trivial) trivial ps _ (built_of_none rfl)
  obtain ⟨b, hm, -, herr⟩ := hf ⟨s.w, none⟩ s ⟨rfl, fun _ _ => trivial⟩ rfl
  obtain ⟨fl, pl, hcore⟩ := coreInv_moves hc hm
  cases hr : spinAll cfg ps s with
  | mk r s' =>
    rw [hr] at hends herr
    cases r with
    | ok ret =>
      obtain ⟨hret, -⟩ := hends
      exact .inl ⟨s', by rw [hret]⟩
    | error e =>
      -- the other two stops would mean a completion without a pending request
      rcases hends with rfl | rfl | rfl
      · exact .inr ⟨s', rfl⟩
      · obtain ⟨c, f, wr, hmem, hnp⟩ := herr _ rfl
        exact absurd (hcore.cq_mem c f wr hmem).2.2.2 hnp
      · obtain ⟨c, f, k, wr, ans, -, hnt, -⟩ := herr _ rfl
        exact absurd (fun hev => by rw [he] at hev; cases hev) hnt

/-- `mp_wait_all` on distinct recorded requests: it returns 0, or it is still
waiting. -/
theorem mpWaitAll_recorded (he : cfg.useEventSync = false) {ps : List Ptr} {w : World} {tape : List Ans}
    (hc : CoreInv cfg ⟨w, none⟩) (hnd : ps.Nodup) (hps : ∀ p ∈ ps, ∃ peer op, Recorded w p peer op)
    (ht : Succeeds tape) :
    (∃ s', mpWaitAll cfg ps ⟨w, tape⟩ = (.ok 0, s')) ∨ ∃ s', mpWaitAll cfg ps ⟨w, tape⟩ = (.error .spinning, s') := by
  obtain ⟨n, w₁, -, hruns, hposts⟩ := postWaits_run ps hc hps
  have h₁ := hposts tape ht
  have ht₁ : Succeeds (tape.drop n) := fun a ha => ht a (List.mem_of_mem_drop ha)
  rcases spinAll_recorded he ps (s := ⟨w₁, tape.drop n⟩) (hruns.core hc) ht₁ with ⟨s₂, h₂⟩ | ⟨s₂, h₂⟩
  · left
    have hcomp := spinAll_complete he ps h₂
    obtain ⟨w', hrun, -⟩ := releaseAll_run ps 0 s₂.w s₂.tape
    rw [toRelease_eq ps hnd hcomp, if_pos rfl] at hrun
    refine ⟨⟨w', s₂.tape⟩, ?_⟩
    rw [mpWaitAll, Prog.bind_ok h₁, if_neg (by decide), Prog.bind_ok h₂, if_neg (by decide)]
    exact hrun
  · right
    refine ⟨s₂, ?_⟩
    rw [mpWaitAll, Prog.bind_ok h₁, if_neg (by decide), Prog.bind_error h₂]

/-! ## A wait that ends

Whatever has happened, the outside can complete the recorded requests one by
one, and a wait for them then returns. -/

/-- With the answers `t` the program gets from `w` to `w'` and returns `x`. -/
def RunsOn {α : Type} (m : M α) (w : World) (t : List Ans) (x : α) (w' : World) : Prop :=
  ∀ rest, m ⟨w, t ++ rest⟩ = (.ok x, ⟨w', rest⟩)

theorem RunsOn.bind {α β : Type} {m : M α} {g : α → M β} {w w₁ w₂ : World} {t u : List Ans} {x : α} {y : β}
    (h₁ : RunsOn m w t x w₁) (h₂ : RunsOn (g x) w₁ u y w₂) : RunsOn (m >>= g) w (t ++ u) y w₂ := by
  intro rest
  rw [List.append_assoc, Prog.bind_ok (h₁ _)]
  exact h₂ rest

theorem Succeeds.append {t u : List Ans} (ht : Succeeds t) (hu : Succeeds u) : Succeeds (t ++ u) := by
  intro a ha
  rcases List.mem_append.mp ha with ha | ha
  · exact ht a ha
  · exact hu a ha

/-- Answers of an outside where nothing happens. -/
theorem succeeds_idle (n : Nat) : Succeeds (List.replicate n {}) := by
  intro a ha
  rw [List.eq_of_mem_replicate ha]

/-- No request is on a waited list. -/
def NoneWaited (w : World) : Prop := ∀ c, (w.clients c).waitedStreamReq = fun _ => none

theorem Runs.noneWaited {w w' : World} (h : Runs cfg w w') (hw : NoneWaited w) : NoneWaited w' := by
  refine Moves.inv (I := fun a : Mach => NoneWaited a.w) ?_ h hw
  rintro a b ha ⟨l, -, hs⟩ c
  rw [step_waitedStreamReq hs]
  exact ha c

/-- The moves of progress are moves of the library between its calls. -/
theorem progress_runs {w : World} {b : Mach} (h : ProgressMoves cfg ⟨w, none⟩ b) : Runs cfg w b.w := by
  have hcur : b.cur = none := by
    refine Moves.inv (I := fun d : Mach => d.cur = none) ?_ h rfl
    rintro d e hd ⟨l, hl, hs⟩
    cases hs with
    | reap | gpu | store | handOver => exact hd
    | _ => exact hl.elim
  obtain ⟨v, cur⟩ := b
  obtain rfl : cur = none := hcur
  refine Relation.ReflTransGen.mono ?_ _ _ h
  rintro d e ⟨l, -, hs⟩
  exact ⟨l, trivial, hs⟩

theorem NoneWaited.complete {w : World} (h : NoneWaited w) (c : Nat) (f : Flow) (k : Nat) (wr : Wr) :
    NoneWaited (w.complete cfg c f k wr) := by
  intro d
  rw [World.complete_clients]
  split
  · exact h c
  · exact h d

theorem Config.clientIndex_lt {peer c : Nat} (h : cfg.clientIndex peer = some c) : c < cfg.clientCount := by
  obtain ⟨k, rfl, hk⟩ := clientIndexFrom_eq h
  obtain ⟨hlt, -⟩ := List.getElem?_eq_some_iff.mp hk
  rw [Nat.zero_add]
  exact hlt

section Polls
variable (he : cfg.useEventSync = false) (hpoll : 0 < cfg.cqPollCount)
include he hpoll

/-- A client whose completion queue shows the completions `ks`. -/
theorem pollClient_run {w : World} (hw : NoneWaited w) (f : Flow) (c : Nat) (ks : List Nat) (tape : List Ans) :
    pollClient cfg f c ⟨w, { picks := ks } :: tape⟩ =
      (progressCompletions cfg c f (ks.take cfg.cqPollCount) >>= fun _ => pure 0) ⟨w, tape⟩ := by
  have hcan : clientCanPoll cfg c f ⟨w, { picks := ks } :: tape⟩ =
      (.ok cfg.cqPollCount, ⟨w, { picks := ks } :: tape⟩) := by
    have hnone : (w.clients c).waitedStreamReq f = none := by rw [hw c]
    rw [clientCanPoll, he, if_neg (by decide)]
    show canPollFrom cfg c f (w.frontier + 1) ((w.clients c).waitedStreamReq f) 0 _ = _
    rw [hnone]
    rfl
  have hmin : min cfg.cqPollCount cfg.cqPollCount = cfg.cqPollCount := Nat.min_self _
  rw [pollClient, Prog.bind_ok hcan, hmin, if_neg (by omega)]
  rfl

theorem pollClient_idle {w : World} (hw : NoneWaited w) (f : Flow) (c : Nat) :
    RunsOn (pollClient cfg f c) w [{}] 0 w := by
  intro rest
  have hrun := pollClient_run he hpoll hw f c [] rest
  rw [List.take_nil] at hrun
  exact hrun

theorem pollClient_completes {w : World} (hw : NoneWaited w) {f : Flow} {c k : Nat} {wr : Wr}
    (hk : (w.cq c f)[k]? = some wr) (hp : (w.mem wr.wrId).status.isPending) :
    RunsOn (pollClient cfg f c) w [{ picks := [k] }, {}] 0 (w.complete cfg c f k wr) := by
  intro rest
  have htrack : w.TrackedOk cfg c f wr.wrId := fun hev => by rw [he] at hev; cases hev
  have htake : [k].take cfg.cqPollCount = [k] := List.take_of_length_le hpoll
  have hrun := pollClient_run he hpoll hw f c [k] ({} :: rest)
  rw [htake, progressCompletions, Prog.bind_ok (Prog.bind_ok (progressCompletion_run hk hp htrack _) _)] at hrun
  exact hrun

theorem pollClients_idle {w : World} (hw : NoneWaited w) (f : Flow) (cs : List Nat) :
    RunsOn (pollClients cfg f cs) w (List.replicate cs.length {}) 0 w := by
  induction cs with
  | nil => exact fun _ => rfl
  | cons c rest ih =>
    rw [pollClients, List.length_cons, List.replicate_succ]
    refine RunsOn.bind (pollClient_idle he hpoll hw f c) ?_
    rw [if_neg (by decide)]
    exact ih

theorem pollClients_completes {w : World} (hw : NoneWaited w) {f : Flow} {c k : Nat} {wr : Wr}
    (hk : (w.cq c f)[k]? = some wr) (hp : (w.mem wr.wrId).status.isPending)
    {cs : List Nat} (hc : c ∈ cs) : ∃ t, Succeeds t ∧
      RunsOn (pollClients cfg f cs) w t 0 (w.complete cfg c f k wr) := by
  induction cs with
  | nil => cases hc
  | cons d rest ih =>
    rw [pollClients]
    by_cases hd : c = d
    · subst hd
      have hpicks : Succeeds [{ picks := [k] }, {}] := by simp [Succeeds]
      refine ⟨_, hpicks.append (succeeds_idle rest.length), .bind (pollClient_completes he hpoll hw hk hp) ?_⟩
      rw [if_neg (by decide)]
      exact pollClients_idle he hpoll (hw.complete c f k wr) f rest
    · obtain ⟨t, ht, hrun⟩ := ih ((List.mem_cons.mp hc).resolve_left hd)
      refine ⟨_, (succeeds_idle 1).append ht, .bind (pollClient_idle he hpoll hw f d) ?_⟩
      rw [if_neg (by decide)]
      exact hrun

theorem mpProgressSingleFlow_idle {w : World} (hw : NoneWaited w) (f : Flow) :
    RunsOn (mpProgressSingleFlow cfg f) w (List.replicate cfg.clientCount {}) 0 w := by
  have hrun := pollClients_idle he hpoll hw f (List.range cfg.clientCount)
  rw [List.length_range] at hrun
  unfold mpProgressSingleFlow progressPostedList
  rw [he]
  exact hrun

theorem mpProgressSingleFlow_completes {w : World} (hw : NoneWaited w) {f : Flow} {c k : Nat} {wr : Wr}
    (hk : (w.cq c f)[k]? = some wr) (hp : (w.mem wr.wrId).status.isPending) (hc : c < cfg.clientCount) :
    ∃ t, Succeeds t ∧ RunsOn (mpProgressSingleFlow cfg f) w t 0 (w.complete cfg c f k wr) := by
  obtain ⟨t, ht, hrun⟩ := pollClients_completes he hpoll hw hk hp (List.mem_range.mpr hc)
  refine ⟨t, ht, ?_⟩
  unfold mpProgressSingleFlow progressPostedList
  rw [he]
  exact hrun

/-- One round of the waiting loop can complete any request that is outstanding. -/
theorem spin_completes {w : World} (hw : NoneWaited w) {f : Flow} {c : Nat} {p : Ptr} {op : Nat}
    (hcq : ⟨p, op⟩ ∈ w.cq c f) (hp : (w.mem p).status.isPending) (hc : c < cfg.clientCount) :
    ∃ t w', Succeeds t ∧ ∀ fuel, RunsOn (spin cfg p (fuel + 2)) w t 0 w' := by
  obtain ⟨k, hk⟩ := List.mem_iff_getElem?.mp hcq
  have hne : (w.mem p).status ≠ .complete := fun hst => by rw [hst] at hp; exact hp
  have hdone : ((w.complete cfg c f k ⟨p, op⟩).mem p).status = .complete := by
    rw [World.complete_mem cfg hp, if_pos rfl]
  have hafter : NoneWaited (w.complete cfg c f k ⟨p, op⟩) := hw.complete c f k ⟨p, op⟩
  obtain ⟨t, ht, hrun⟩ := mpProgressSingleFlow_completes he hpoll hw hk hp hc
  -- both flows, then the clock: the round after finds the request complete
  have hround : ∀ t₁ t₂ v, Succeeds t₁ → Succeeds t₂ → RunsOn (mpProgressSingleFlow cfg .tx) w t₁ 0 v →
      RunsOn (mpProgressSingleFlow cfg .rx) v t₂ 0 (w.complete cfg c f k ⟨p, op⟩) →
      ∃ t w', Succeeds t ∧ ∀ fuel, RunsOn (spin cfg p (fuel + 2)) w t 0 w' := by
    intro t₁ t₂ v ht₁ ht₂ h₁ h₂
    refine ⟨_, w.complete cfg c f k ⟨p, op⟩, ht₁.append (ht₂.append (succeeds_idle 1)), fun fuel rest => ?_⟩
    rw [spin, Prog.bind_ok (request_run _ _ _), if_neg hne, List.append_assoc, Prog.bind_ok (h₁ _), if_neg (by decide),
      List.append_assoc, Prog.bind_ok (h₂ _), if_neg (by decide)]
    show spin cfg p (fuel + 1) ⟨w.complete cfg c f k ⟨p, op⟩, rest⟩ = _
    rw [spin, Prog.bind_ok (request_run _ _ _), if_pos hdone]
    rfl
  have hsucc := succeeds_idle cfg.clientCount
  cases f with
  | tx => exact hround t _ _ ht hsucc hrun (mpProgressSingleFlow_idle he hpoll hafter .rx)
  | rx => exact hround _ t _ hsucc ht (mpProgressSingleFlow_idle he hpoll hw .tx) hrun

theorem spin_recorded {w : World} (hc : CoreInv cfg ⟨w, none⟩) (hw : NoneWaited w) {p : Ptr} {peer op : Nat}
    (hp : Recorded w p peer op) : ∃ t w', Succeeds t ∧ ∀ fuel, RunsOn (spin cfg p (fuel + 2)) w t 0 w' := by
  rcases hp.state with hst | ⟨hst, c, f, hcq⟩
  · refine ⟨[], w, by simp [Succeeds], fun fuel rest => ?_⟩
    rw [spin, Prog.bind_ok (request_run _ _ _), if_pos hst]
    rfl
  · obtain ⟨fl, pl, hcore⟩ := hc
    exact spin_completes he hpoll hw hcq hst (Config.clientIndex_lt (hcore.cq_mem c f _ hcq).2.1.1)

theorem spinAll_ends (ps : List Ptr) {w : World} (hc : CoreInv cfg ⟨w, none⟩) (hw : NoneWaited w)
    (hps : ∀ p ∈ ps, ∃ peer op, Recorded w p peer op) : ∃ t w', Succeeds t ∧ RunsOn (spinAll cfg ps) w t 0 w' := by
  induction ps generalizing w with
  | nil => exact ⟨[], w, by simp [Succeeds], fun _ => rfl⟩
  | cons p rest ih =>
    obtain ⟨peer, op, hp⟩ := hps p List.mem_cons_self
    obtain ⟨t₁, w₁, ht₁, hrun₁⟩ := spin_recorded he hpoll hc hw hp
    obtain ⟨b, rfl, hm⟩ := spin_moves (hrun₁ 0 [])
    have hruns := progress_runs hm
    have hrest : ∀ q ∈ rest, ∃ peer op, Recorded b.w q peer op := by
      intro q hq
      obtain ⟨peer', op', hq'⟩ := hps q (List.mem_cons_of_mem p hq)
      exact ⟨peer', op', recorded_progress he hm hq'⟩
    obtain ⟨t₂, w₂, ht₂, hrun₂⟩ := ih (hruns.core hc) (hruns.noneWaited hw) hrest
    refine ⟨t₁ ++ t₂, w₂, ht₁.append ht₂, fun tape => ?_⟩
    rw [spinAll, Prog.bind_ok (Prog.get_run _), List.append_assoc, Prog.bind_ok (hrun₁ _ _), if_neg (by decide)]
    exact hrun₂ tape

/-- A wait for distinct recorded requests can always return 0. -/
theorem mpWaitAll_ends {ps : List Ptr} {w : World} (hc : CoreInv cfg ⟨w, none⟩) (hw : NoneWaited w) (hnd : ps.Nodup)
    (hps : ∀ p ∈ ps, ∃ peer op, Recorded w p peer op) :
    ∃ tape s', Succeeds tape ∧ mpWaitAll cfg ps ⟨w, tape⟩ = (.ok 0, s') := by
  obtain ⟨n, w₁, hposted, hruns, hposts⟩ := postWaits_run ps hc hps
  have hps₁ : ∀ p ∈ ps, ∃ peer op, Recorded w₁ p peer op := by
    intro p hp
    obtain ⟨peer, op, hr⟩ := hps p hp
    exact ⟨peer, op, hposted.recorded hr⟩
  obtain ⟨t, w₂, ht, hrun⟩ := spinAll_ends he hpoll ps (hruns.core hc) (hruns.noneWaited hw) hps₁
  have hsucc : Succeeds (List.replicate n ({} : Ans) ++ t) := (succeeds_idle n).append ht
  have hspun : spinAll cfg ps ⟨w₁, t⟩ = (.ok 0, ⟨w₂, []⟩) := by
    have h := hrun []
    rw [List.append_nil] at h
    exact h
  have hdrop : (List.replicate n ({} : Ans) ++ t).drop n = t := by simp
  refine ⟨List.replicate n ({} : Ans) ++ t, ?_⟩
  rcases mpWaitAll_recorded he hc hnd hps hsucc with ⟨s', h⟩ | ⟨s', h⟩
  · exact ⟨s', hsucc, h⟩
  · exfalso
    rw [mpWaitAll, Prog.bind_ok (hposts _ hsucc), hdrop, if_neg (by decide),
      Prog.bind_ok hspun, if_neg (by decide)] at h
    obtain ⟨w', hrel, -⟩ := releaseAll_run ps 0 w₂ []
    rw [hrel] at h
    cases h

end Polls

end LibMp
