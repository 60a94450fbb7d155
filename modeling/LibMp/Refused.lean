import LibMp.Making
import LibMp.Puts

/- Work requests that are not taken.

   Without event sync, a call that has taken a request and filled it in can
   still find that the outside does not take its work request. Two of the
   fourteen calls put the request back then; the others return the error and
   keep the request, which nobody can name any more. The set of live requests
   is followed through any number of such calls. -/
namespace LibMp
variable {cfg : Config}

/-! ## The free list -/

/-- The free list of the world. -/
structure HasFree (w : World) (fl : List Ptr) : Prop where
  list : FreeList w fl
  nodup : fl.Nodup
  lt : ∀ p ∈ fl, p < w.frontier

/-- The pool is a free list without repetitions, inside the regions. -/
def PoolOk (w : World) : Prop := ∃ fl, HasFree w fl

/-- The pool is well formed in every world with the invariant of the library. -/
theorem poolOk_of_coreInv {w : World} (h : CoreInv cfg ⟨w, none⟩) : PoolOk w := by
  obtain ⟨fl, pl, hc⟩ := h
  exact ⟨fl, hc.free, hc.free_nodup, hc.free_lt⟩

theorem poolOk_init : PoolOk World.init := poolOk_of_coreInv (@coreInv_init {})

namespace HasFree
variable {w w' : World} {fl : List Ptr}

theorem live (h : HasFree w fl) (q : Ptr) : Live w q ↔ q < w.frontier ∧ q ∉ fl := by
  constructor
  · rintro ⟨h1, h2⟩
    exact ⟨h1, h2 fl h.list⟩
  · rintro ⟨h1, h2⟩
    refine ⟨h1, fun l hl => ?_⟩
    rw [show l = fl from Linked.unique hl h.list]
    exact h2

/-- A new region is free. -/
theorem allocate (w : World) : HasFree w.allocateRequests (List.range' w.frontier mpRequestLimit) :=
  ⟨freeList_allocate w, List.nodup_range', fun _ hq => (List.mem_range'_1.mp hq).2⟩

/-- Refilling an empty free list changes nothing for the live requests. -/
theorem refill (h : HasFree w fl) :
    ∃ fl', HasFree w.refill (w.nextFree :: fl') ∧ ∀ q, Live w.refill q ↔ Live w q := by
  by_cases hn : w.mpRequestFreeList = none
  · have hr : w.refill = w.allocateRequests := by simp [World.refill, hn]
    have hnil : fl = [] := by
      have hl := h.list
      simp only [FreeList, hn] at hl
      exact hl.eq_nil
    rw [hnil] at h
    have ha := allocate w
    rw [← hr] at ha
    obtain ⟨fl', he⟩ := ha.list.cons_of_refill
    refine ⟨fl', he ▸ ha, fun q => ?_⟩
    have hfr : w.refill.frontier = w.frontier + mpRequestLimit := by rw [hr]; rfl
    rw [ha.live, h.live, hfr, lt_region_iff]
    simp
  · have hr : w.refill = w := by simp [World.refill, hn]
    rw [← hr] at h
    obtain ⟨fl', he⟩ := h.list.cons_of_refill
    rw [he] at h
    refine ⟨fl', h, fun _ => ?_⟩
    rw [hr]

/-- The pool after a request was taken and filled in. -/
theorem started {op : Op} {j : Recipe} (hj : op.recipe cfg = some j) {c : Nat}
    (h : HasFree w.refill (w.nextFree :: fl)) :
    HasFree (j.started cfg w c) fl ∧ w.nextFree < (j.started cfg w c).frontier ∧ w.nextFree ∉ fl := by
  obtain ⟨g, hg, hr⟩ := Op.recipe_build hj c w.nextFree (w.take j.fn c (cfg.mpiRank c) j.type j.state)
  have hs : j.started cfg w c = (w.take j.fn c (cfg.mpiRank c) j.type j.state).setReq w.nextFree g := hg
  obtain ⟨hnot, hnd⟩ := List.nodup_cons.mp h.nodup
  rw [hs]
  refine ⟨⟨?_, hnd, fun p hp => h.lt p (List.mem_cons_of_mem _ hp)⟩, h.lt _ List.mem_cons_self, hnot⟩
  have htaken : FreeList (w.take j.fn c (cfg.mpiRank c) j.type j.state) fl := h.list.take hnot
  refine Linked.frame htaken fun q hq => ?_
  have hne : q ≠ w.nextFree := fun he => hnot (he ▸ hq)
  rw [World.setReq_mem, if_neg hne]

theorem carries (he : cfg.useEventSync = false) (h : HasFree w fl) (hw : Carries cfg w w') : HasFree w' fl := by
  refine ⟨?_, h.nodup, fun p hp => by rw [hw.frontier]; exact h.lt p hp⟩
  have hl := h.list
  unfold FreeList at hl ⊢
  rw [hw.free]
  exact hl.frame fun q _ => hw.links he q

theorem release (h : HasFree w fl) {p : Ptr} (hp : p ∉ fl) (hlt : p < w.frontier) :
    HasFree (w.release p) (p :: fl) := by
  refine ⟨FreeList.release h.list hp, List.nodup_cons.mpr ⟨hp, h.nodup⟩, ?_⟩
  intro q hq
  rcases List.mem_cons.mp hq with rfl | hq
  · exact hlt
  · exact h.lt q hq

end HasFree

/-! ## The calls -/

/-- The calls that put their request back when they fail. -/
def Fn.putsBack : Fn → Bool
  | .mpPutPrepare | .mpIputOnStream => true
  | _ => false

/-- What a call leaves whose work request was not taken. -/
def Fn.leave (fn : Fn) (p : Ptr) (w : World) : World := if fn.putsBack then w.release p else w

theorem start_run {β : Type} {fn : Fn} {c rank : Nat} {type : ReqType} {st : State} {bld : Ptr → World → World}
    {rest : Ptr → M β} {w : World} {tape : List Ans} (hid : (w.clients c).lastReqId < uintMax) :
    (newStreamRequest fn c rank type st >>= fun p => update (bld p) >>= fun _ => rest p) ⟨w, tape⟩ =
      rest w.nextFree ⟨bld w.nextFree (w.take fn c rank type st), tape⟩ := by
  rcases newStreamRequest_run fn c rank type st ⟨w, tape⟩ with ⟨-, hrun⟩ | ⟨hge, -⟩
  · rw [Prog.bind_ok hrun, Prog.bind_ok (update_run _ _ _)]
  · exact absurd hid hge

section Rejects
variable {m : M Int} {s s₁ : Sys} {rc : Int} (hs : m s = (.ok rc, s₁)) (hrc : rc ≠ 0)
include hs hrc

theorem reject_run (f : M (Int × Option Ptr)) : (do
    let ret ← m
    if ret ≠ 0 then return (ret, none)
    f) s = (.ok (rc, none), s₁) := by
  rw [Prog.bind_ok hs, if_pos hrc]
  rfl

theorem releaseOnError_run (p : Ptr) (f : M Int) : releaseOnError p (do
    let ret ← m
    if ret ≠ 0 then return ret
    f) s = (.ok (rc, none), { s₁ with w := s₁.w.release p }) := by
  have hm : (do
      let ret ← m
      if ret ≠ 0 then return ret
      f) s = (.ok rc, s₁) := by
    rw [Prog.bind_ok hs, if_pos hrc]
    rfl
  rw [releaseOnError, Prog.bind_ok hm, if_pos hrc]
  rfl

end Rejects

/-- A call whose work request is not taken returns the error. -/
theorem Op.run_rejected (he : cfg.useEventSync = false) {op : Op} {j : Recipe} (hj : op.recipe cfg = some j) {w : World}
    {c : Nat} (ht : j.Takes cfg w c) {tape : List Ans} {rc : Int} {s₁ : Sys}
    (hs : j.submit c w.nextFree ⟨j.started cfg w c, tape⟩ = (.ok rc, s₁)) (hrc : rc ≠ 0) :
    op.run cfg ⟨w, tape⟩ = (.ok (rc, none), { s₁ with w := j.fn.leave w.nextFree s₁.w }) := by
  obtain ⟨hp, hc, hin, hid⟩ := ht
  cases op <;> cases hj <;> dsimp only [sendRecipe, recvRecipe, rdmaRecipe] at hp hc hin
  case isend buf size peer reg =>
    show mpIsend cfg buf size peer reg ⟨w, tape⟩ = _
    rw [mpIsend, Prog.bind_ok (clientOf_run hc _), start_run hid]
    exact reject_run hs hrc _
  case irecv buf size peer reg =>
    show mpIrecv cfg buf size peer reg ⟨w, tape⟩ = _
    rw [mpIrecv, Prog.bind_ok (clientOf_run hc _), start_run hid]
    exact reject_run hs hrc _
  case isendv v peer reg =>
    show mpIsendv cfg v peer reg ⟨w, tape⟩ = _
    rw [mpIsendv, if_neg (of_decide_eq_false hp), Prog.bind_ok (clientOf_run hc _), start_run hid]
    exact reject_run hs hrc _
  case irecvv v peer reg =>
    show mpIrecvv cfg v peer reg ⟨w, tape⟩ = _
    rw [mpIrecvv, if_neg (of_decide_eq_false hp), Prog.bind_ok (clientOf_run hc _), start_run hid]
    exact reject_run hs hrc _
  case iput src size reg peer displ win flags =>
    show mpIput cfg src size reg peer displ win flags ⟨w, tape⟩ = _
    rw [mpIput, if_neg (by simp [hp]), Prog.bind_ok (clientOf_run hc _), Prog.bind_ok (require_run hin _ _),
      start_run hid]
    exact reject_run hs hrc _
  case iget dst size reg peer displ win =>
    show mpIget cfg dst size reg peer displ win ⟨w, tape⟩ = _
    rw [mpIget, if_neg (by simp [hp]), Prog.bind_ok (clientOf_run hc _), Prog.bind_ok (require_run hin _ _),
      start_run hid]
    exact reject_run hs hrc _
  case sendOnStream buf size peer reg s =>
    show mpSendOnStream cfg buf size peer reg s ⟨w, tape⟩ = _
    rw [he] at hs
    rw [mpSendOnStream, Prog.bind_ok (clientOf_run hc _), if_neg (by simp [he]), start_run hid]
    exact reject_run hs hrc _
  case isendOnStream buf size peer reg s =>
    show mpIsendOnStream cfg buf size peer reg s ⟨w, tape⟩ = _
    rw [he] at hs
    rw [mpIsendOnStream, Prog.bind_ok (clientOf_run hc _), if_neg (by simp [he]), start_run hid]
    exact reject_run hs hrc _
  case isendvOnStream v peer reg s =>
    show mpIsendvOnStream cfg v peer reg s ⟨w, tape⟩ = _
    rw [he] at hp
    rw [mpIsendvOnStream, Prog.bind_ok (clientOf_run hc _), if_neg (by simp [he]), if_neg (of_decide_eq_false hp),
      start_run hid]
    exact reject_run hs hrc _
  case sendPrepare buf size peer reg =>
    show mpSendPrepare cfg buf size peer reg ⟨w, tape⟩ = _
    rw [mpSendPrepare, Prog.bind_ok (clientOf_run hc _), start_run hid, if_neg (by simp [he])]
    exact reject_run hs hrc _
  case sendvPrepare v peer reg =>
    show mpSendvPrepare cfg v peer reg ⟨w, tape⟩ = _
    rw [he] at hp
    rw [mpSendvPrepare, Prog.bind_ok (clientOf_run hc _), if_neg (by simp [he]), if_neg (of_decide_eq_false hp),
      start_run hid]
    exact reject_run hs hrc _
  case putPrepare src size reg peer displ win flags =>
    show mpPutPrepare cfg src size reg peer displ win flags ⟨w, tape⟩ = _
    rw [mpPutPrepare, if_neg (by simp [hp]), Prog.bind_ok (clientOf_run hc _), Prog.bind_ok (require_run hin _ _),
      start_run hid]
    exact releaseOnError_run hs hrc _ _
  case iputOnStream src size reg peer displ win flags s =>
    show mpIputOnStream cfg src size reg peer displ win flags s ⟨w, tape⟩ = _
    rw [mpIputOnStream, if_neg (by simp [hp]), Prog.bind_ok (clientOf_run hc _), Prog.bind_ok (require_run hin _ _),
      start_run hid]
    exact releaseOnError_run hs hrc _ _
  case igetOnStream dst size reg peer displ win s =>
    show mpIgetOnStream cfg dst size reg peer displ win s ⟨w, tape⟩ = _
    rw [mpIgetOnStream, if_neg (by simp [hp]), Prog.bind_ok (clientOf_run hc _), Prog.bind_ok (require_run hin _ _),
      start_run hid]
    exact reject_run hs hrc _

/-- Until the outside has answered, what was made is kept. -/
theorem Op.recipe_submit {op : Op} {j : Recipe} (hj : op.recipe cfg = some j) (c : Nat) (p : Ptr) :
    Stays (Carries cfg) (j.submit c p) := by
  cases op <;> cases hj
  case isend => exact (Submits.mpPostSend c).stays
  case irecv => exact (Submits.mpPostRecv c).stays
  case isendv => exact (Submits.gdsPostSend c).stays
  case irecvv => exact (Submits.gdsPostRecv c).stays
  case iput => exact (Submits.mpPostSend c).stays
  case iget => exact (Submits.gdsPostSend c).stays
  case sendOnStream s => exact (Submits.gdsStreamQueueSend s c).stays
  case isendOnStream s => exact (Submits.mpPostSendOnStream s c).stays
  case isendvOnStream s => exact (Submits.gdsStreamQueueSend s c).stays
  case sendPrepare => exact (Submits.gdsPrepareSend c).stays
  case sendvPrepare => exact (Submits.gdsPrepareSend c).stays
  case putPrepare => exact (Submits.gdsPrepareSend c).stays
  case iputOnStream s => exact (Submits.mpPostSendOnStream s c).stays
  case igetOnStream s => exact (Submits.gdsStreamQueueSend s c).stays

/-! ## The pool -/

/-- The event is a call that takes a request, and the outside does not take its
work request. -/
def Event.Rejected (cfg : Config) (w : World) : Event → Prop
  | .call op tape => ∃ j c rc s₁, op.recipe cfg = some j ∧ j.Takes cfg w c ∧
      j.submit c w.nextFree ⟨j.started cfg w c, tape⟩ = (.ok rc, s₁) ∧ rc ≠ 0
  | _ => False

/-- `mp_put_prepare` and `mp_iput_on_stream`. -/
def Event.putsBack : Event → Bool
  | .call (.putPrepare _ _ _ _ _ _ _) _ | .call (.iputOnStream _ _ _ _ _ _ _ _) _ => true
  | _ => false

theorem Op.recipe_putsBack {op : Op} {j : Recipe} (hj : op.recipe cfg = some j) (tape : List Ans) :
    j.fn.putsBack = (Event.call op tape).putsBack := by
  cases op <;> cases hj <;> rfl

/-- Nothing is left of the request that was taken from `w`: it is back on the
free list, without its array, and the live requests are the same. -/
structure Undone (w w' : World) : Prop where
  live : ∀ q, Live w' q ↔ Live w q
  back : w'.mpRequestFreeList = some w.nextFree
  sgv : (w'.mem w.nextFree).sgv = none

/-- Every event leaves nothing of the request it took. -/
def EachUndone (cfg : Config) (w : World) : List Event → Prop
  | [] => True
  | ev :: rest => Undone w (ev.exec cfg w).2 ∧ EachUndone cfg (ev.exec cfg w).2 rest

/-- A recipe that puts its request back uses no array. -/
theorem Op.recipe_sgv {op : Op} {j : Recipe} (hj : op.recipe cfg = some j) (hb : j.fn.putsBack = true) (w : World)
    (c : Nat) : ((j.started cfg w c).mem w.nextFree).sgv = none := by
  cases op <;> cases hj <;> cases hb
  · simp [Recipe.started, rdmaRecipe, World.buildPut, World.take]
  · simp [Recipe.started, rdmaRecipe, World.buildPut, World.take]

/-- A rejected call puts its request back, or the request is live from then on. -/
theorem rejected_leaves (he : cfg.useEventSync = false) {w : World} (hp : PoolOk w) {ev : Event}
    (hr : ev.Rejected cfg w) : PoolOk (ev.exec cfg w).2 ∧ (ev.putsBack = true → Undone w (ev.exec cfg w).2) ∧
    (ev.putsBack = false → ¬ Live w w.nextFree ∧ ∀ q, Live (ev.exec cfg w).2 q ↔ Live w q ∨ q = w.nextFree) := by
  cases ev with
  | gpu g => exact hr.elim
  | work s tag => exact hr.elim
  | call op tape =>
    obtain ⟨j, c, rc, s₁, hj, ht, hs, hrc⟩ := hr
    obtain ⟨fl, hfl⟩ := hp
    obtain ⟨fl', hre, hlive⟩ := hfl.refill
    obtain ⟨hst, hlt, hnot⟩ := hre.started hj (c := c)
    have hk : Carries cfg (j.started cfg w c) s₁.w := (Op.recipe_submit hj c w.nextFree).run hs
    have hs₁ := hst.carries he hk
    rw [← hk.frontier] at hlt
    have hfr : s₁.w.frontier = w.refill.frontier := by
      rw [hk.frontier]
      obtain ⟨g, hg, -⟩ := Op.recipe_build hj c w.nextFree (w.take j.fn c (cfg.mpiRank c) j.type j.state)
      rw [Recipe.started, hg]
      rfl
    have hexec : (Event.exec cfg w (.call op tape)).2 = j.fn.leave w.nextFree s₁.w := by
      have hrun := Op.run_rejected he hj ht hs hrc
      have hsw : op.streamWait = none := by cases op <;> cases hj <;> rfl
      show (op.exec cfg tape w).2 = _
      simp only [Op.exec, hrun, hsw]
    rw [hexec, ← Op.recipe_putsBack hj tape, Fn.leave]
    cases hb : j.fn.putsBack with
    | true =>
      -- the release undoes the take: the live requests are those before it
      rw [if_pos rfl]
      have hrel := hs₁.release hnot hlt
      refine ⟨⟨_, hrel⟩, fun _ => ⟨fun q => ?_, rfl, ?_⟩, fun hf => by cases hf⟩
      · rw [hrel.live, ← hlive, hre.live]
        show q < s₁.w.frontier ∧ _ ↔ _
        rw [hfr]
      · have hsgv := (hk.mem w.nextFree).sgv (Op.recipe_sgv hj hb w c)
        simpa [World.release] using hsgv
    | false =>
      -- the request was free before and is in nobody's hands now
      rw [if_neg (by decide)]
      refine ⟨⟨_, hs₁⟩, fun hf => absurd hf Bool.false_ne_true, fun _ => ⟨?_, fun q => ?_⟩⟩
      · rw [← hlive, hre.live]
        exact fun h => h.2 List.mem_cons_self
      · rw [hs₁.live, ← hlive, hre.live, hfr]
        by_cases hq : q = w.nextFree
        · rw [hq, ← hfr]
          exact ⟨fun _ => .inr rfl, fun _ => ⟨hlt, hnot⟩⟩
        · simp [hq]

/-- Rejected calls keep the live requests live. -/
theorem rejected_keep_live (he : cfg.useEventSync = false) {w : World} (hp : PoolOk w) {evs : List Event}
    (h : AllOk cfg (fun ev w => ev.Rejected cfg w) w evs) {q : Ptr} (hq : Live w q) : Live (w.after cfg evs) q := by
  induction evs generalizing w with
  | nil => exact hq
  | cons ev rest ih =>
    obtain ⟨hr, -, hrest⟩ := h
    obtain ⟨hp', hback, hleak⟩ := rejected_leaves he hp hr
    refine ih hp' hrest ?_
    cases hb : ev.putsBack with
    | true => exact ((hback hb).live q).mpr hq
    | false => exact ((hleak hb).2 q).mpr (.inl hq)

/-- One rejected call leaves nothing of its request exactly if it puts it back. -/
theorem undone_iff (he : cfg.useEventSync = false) {w : World} (hp : PoolOk w) {ev : Event} (hr : ev.Rejected cfg w) :
    Undone w (ev.exec cfg w).2 ↔ ev.putsBack = true := by
  obtain ⟨-, hback, hleak⟩ := rejected_leaves he hp hr
  refine ⟨fun h => ?_, hback⟩
  cases hb : ev.putsBack with
  | true => rfl
  | false =>
    obtain ⟨hdead, hl⟩ := hleak hb
    exact absurd ((h.live _).mp ((hl _).mpr (.inr rfl))) hdead

/-- Without event sync, in any world with a well-formed pool, for any number of
calls whose work requests the outside does not take: each of them leaves the
live requests as they were, its own request back on the free list and without
an array, exactly if all of them are `mp_put_prepare` or `mp_iput_on_stream`;
and after all of them the live requests are those from before exactly then. -/
theorem rejected_calls_keep_the_pool (he : cfg.useEventSync = false) {w : World} (hp : PoolOk w) {evs : List Event}
    (h : AllOk cfg (fun ev w => ev.Rejected cfg w) w evs) :
    (EachUndone cfg w evs ↔ ∀ ev ∈ evs, ev.putsBack = true) ∧
    ((∀ q, Live (w.after cfg evs) q ↔ Live w q) ↔ ∀ ev ∈ evs, ev.putsBack = true) := by
  induction evs generalizing w with
  | nil => exact ⟨⟨nofun, fun _ => trivial⟩, ⟨nofun, fun _ _ => Iff.rfl⟩⟩
  | cons ev rest ih =>
    obtain ⟨hr, -, hrest⟩ := h
    obtain ⟨hp', hback, hleak⟩ := rejected_leaves he hp hr
    obtain ⟨ih₁, ih₂⟩ := ih hp' hrest
    simp only [List.forall_mem_cons]
    refine ⟨and_congr (undone_iff he hp hr) ih₁, fun hsame => ?_, fun hall q => ?_⟩
    · -- a request that is lost stays live to the end
      have hb : ev.putsBack = true := by
        cases hb : ev.putsBack with
        | true => rfl
        | false =>
          obtain ⟨hdead, hl⟩ := hleak hb
          exact absurd ((hsame _).mp (rejected_keep_live he hp' hrest ((hl _).mpr (.inr rfl)))) hdead
      refine ⟨hb, ih₂.mp fun q => ?_⟩
      rw [(hback hb).live q]
      exact hsame q
    · -- the first call has left the live requests as they were
      have hend := ih₂.mpr hall.2 q
      rw [(hback hall.1).live q] at hend
      exact hend

/-- The first call to the outside fails. -/
def firstFails : List Ans := [{ rc := einval }]

/-- Two puts that cannot be prepared. -/
theorem rejected_calls_keep_the_pool_puts : ∃ evs,
    evs = [Event.call (.putPrepare 0 8 ⟨0⟩ 1 0 wideWindow 0) firstFails,
      .call (.putPrepare 0 8 ⟨0⟩ 1 0 wideWindow mpPutNowait) firstFails] ∧
    AllOk onePeer (fun ev w => ev.Rejected onePeer w) World.init evs ∧ EachUndone onePeer World.init evs := by
  have hok : AllOk onePeer (fun ev w => ev.Rejected onePeer w) World.init
      [.call (.putPrepare 0 8 ⟨0⟩ 1 0 wideWindow 0) firstFails,
        .call (.putPrepare 0 8 ⟨0⟩ 1 0 wideWindow mpPutNowait) firstFails] := by
    refine ⟨⟨_, 0, _, _, rfl, ⟨rfl, rfl, rfl, by decide⟩, rfl, by decide⟩, by decide,
      ⟨_, 0, _, _, rfl, ⟨rfl, rfl, rfl, by decide⟩, rfl, by decide⟩, by decide, trivial⟩
  refine ⟨_, rfl, hok, (rejected_calls_keep_the_pool rfl poolOk_init hok).1.mpr ?_⟩
  simp [Event.putsBack]

/-- A send whose work request is not taken: the call returns the error, and
request 0, which was free, is live. -/
theorem rejected_send_keeps_its_request : ∃ w',
    (Event.exec onePeer World.init (.call (.isend 0 8 1 ⟨0⟩) firstFails)) = (.ok (einval, none), w') ∧
    (Event.call (.isend 0 8 1 ⟨0⟩) firstFails).Rejected onePeer World.init ∧
    ¬ Live World.init 0 ∧ Live w' 0 ∧ ¬ Undone World.init w' := by
  have hr : (Event.call (.isend 0 8 1 ⟨0⟩) firstFails).Rejected onePeer World.init :=
    ⟨_, 0, _, _, rfl, ⟨rfl, rfl, rfl, by decide⟩, rfl, by decide⟩
  obtain ⟨-, -, hleak⟩ := rejected_leaves rfl poolOk_init hr
  obtain ⟨hdead, hlive⟩ := hleak rfl
  have hnew : Live (Event.exec onePeer World.init (.call (.isend 0 8 1 ⟨0⟩) firstFails)).2 0 := (hlive 0).mpr (.inr rfl)
  exact ⟨_, rfl, hr, hdead, hnew, fun h => hdead ((h.live 0).mp hnew)⟩

end LibMp
