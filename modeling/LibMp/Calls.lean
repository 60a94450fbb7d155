import LibMp.Simulation

/- The request machine follows the calls of mp.h that are not prepared sends
   or puts on a stream without event sync, nor calls on descriptor queues
   other than the waits. -/
namespace LibMp
variable {cfg : Config} {Good : Ans → Prop} {K : Lbl → Mach → Prop}

/-! ## A request of the pool becomes a request of the call -/

theorem clientIndexFrom_eq {l : List Nat} {i j peer : Nat} (h : clientIndexFrom l i peer = some j) :
    ∃ k, j = i + k ∧ l[k]? = some peer := by
  induction l generalizing i with
  | nil => cases h
  | cons r rest ih =>
    unfold clientIndexFrom at h
    split at h
    · rename_i j' hj
      cases h
      obtain ⟨k, rfl, hk⟩ := ih hj
      exact ⟨k + 1, by omega, by simpa using hk⟩
    · split at h
      · rename_i hr
        cases h
        exact ⟨0, rfl, by simp [hr]⟩
      · cases h

/-- The client at `client_index[peer]` has rank `peer`. -/
theorem Config.mpiRank_eq {peer c : Nat} (h : cfg.clientIndex peer = some c) : cfg.mpiRank c = peer := by
  obtain ⟨k, rfl, hk⟩ := clientIndexFrom_eq h
  simp [Config.mpiRank, hk]

/-- The call has taken the request at `p` and filled in its work request. -/
structure Fresh (cfg : Config) (fn : Fn) (c : Nat) (st : State) (a : Mach) (p : Ptr) : Prop where
  cur : a.cur = some ⟨p, st, true⟩
  at_ : a.w.At cfg p c fn.flow
  owner : (a.w.mem p).owner = some fn
  trigger : (a.w.mem p).trigger = false
  signaled : fn.isPut = false → nowait (a.w.mem p).flags = false

theorem isPending_nowait : State.pendingNowait.isPending := trivial

theorem isPending_pending : State.pending.isPending := trivial

theorem nowait_zero : nowait 0 = false := by decide

section Start
variable (hK : ∀ l a, l.Basic → K l a)
include hK

/-- Taking a request and filling it in. `g p` is what the call stores. -/
theorem Follows.start {β : Type} {fn : Fn} {c peer : Nat} {type : ReqType} {st : State} {a : Mach}
    {bld : Ptr → World → World} {rest : Ptr → M β} {T : β → Mach → Prop} (g : Ptr → Request → Request)
    (hbld : ∀ p w, bld p w = w.setReq p (g p)) (ha : a.cur = none) (hc : cfg.clientIndex peer = some c)
    (hty : type ≠ .null) (hfl : type.flow = fn.flow) (hst : st = .prepared ∨ st.isPending)
    (hfn : fn = .mpSendPrepare → st = .prepared)
    (hg : ∀ p (r : Request), r.flags = 0 → r.owner = some fn → r.SameLife (g p r) ∧ (g p r).WrOk p)
    (h : ∀ p b, p = a.w.nextFree → b = ⟨(a.w.take fn c (cfg.mpiRank c) type st).setReq p (g p), some ⟨p, st, true⟩⟩ →
      Fresh cfg fn c st b p → PostMoves cfg Good a b → Follows cfg Good K b (rest p) T) :
    Follows cfg Good K a (newStreamRequest fn c (cfg.mpiRank c) type st >>= fun p =>
      LibMp.update (bld p) >>= fun _ => rest p) T := by
  have hrank : cfg.clientIndex (cfg.mpiRank c) = some c := by rw [Config.mpiRank_eq hc]; exact hc
  obtain ⟨w, cur⟩ := a
  obtain rfl : cur = none := ha
  refine Follows.bind (Q := fun p b => p = w.nextFree ∧ b = ⟨w.take fn c (cfg.mpiRank c) type st, some ⟨p, st, false⟩⟩)
    ?_ ?_
  · rintro b s hR rfl
    obtain ⟨hw, htape⟩ := hR
    simp only at hw
    subst hw
    -- an assertion on the free list may stop the call before it has a request
    rcases newStreamRequest_run fn c (cfg.mpiRank c) type st s with ⟨-, hrun⟩ | ⟨-, s', hrun⟩
    · rw [hrun]
      refine ⟨_, .single ⟨.take fn c, hK _ _ trivial, Step.take fn c type st hrank hty hfl hst hfn⟩, ?_, ?_⟩
      · intro x hx
        cases hx
        exact ⟨⟨rfl, htape⟩, rfl, rfl⟩
      · intro e he
        cases he
    · rw [hrun]
      refine ⟨_, .refl, ?_, ?_⟩
      · intro x hx
        cases hx
      · intro e he
        cases he
        trivial
  · rintro p b ⟨rfl, rfl⟩
    obtain ⟨h1, h2, -, h4, h5, h6, -⟩ := w.take_mem fn c (cfg.mpiRank c) type st
    obtain ⟨hlife, hok⟩ := hg w.nextFree _ h5 h4
    refine Follows.update (b := ⟨(w.take fn c (cfg.mpiRank c) type st).setReq w.nextFree (g w.nextFree),
        some ⟨w.nextFree, st, true⟩⟩)
      (.single ⟨.build w.nextFree, hK _ _ trivial, Step.build (g w.nextFree) hlife hok⟩) (hbld _ _).symm ?_
    have hstep : Step cfg Good (.take fn c) ⟨w, none⟩
      ⟨w.take fn c (cfg.mpiRank c) type st, some ⟨w.nextFree, st, false⟩⟩ :=
      Step.take fn c type st hrank hty hfl hst hfn
    refine h _ _ rfl rfl ?_ (.tail (.single ⟨.take fn c, trivial, hstep⟩)
      ⟨.build w.nextFree, trivial, Step.build (g w.nextFree) hlife hok⟩)
    obtain ⟨l1, l2, -, l4, -, -, -, l8, -, l10⟩ := hlife
    refine ⟨rfl, ⟨?_, ?_, ?_⟩, ?_, ?_, ?_⟩
    · simp only [World.setReq_mem, if_true]
      rw [l2, h2]
      exact hrank
    · simp only [World.setReq_mem, if_true]
      rw [l1, h1]
      exact hty
    · simp only [World.setReq_mem, if_true]
      rw [l1, h1]
      exact hfl
    · simp only [World.setReq_mem, if_true]
      rw [l8]
      exact h4
    · simp only [World.setReq_mem, if_true]
      rw [l4]
      exact h6
    · intro hput
      simp only [World.setReq_mem, if_true]
      rw [l10 fn h4 hput, h5]
      exact nowait_zero

end Start

/-! The work requests the calls fill in. -/

section Builders
variable {p : Ptr} {r : Request} {fn : Fn} (hf : r.flags = 0)
include hf

theorem buildSend_ok (c numSge : Nat) (l : SgList) (e : Sge) :
    r.SameLife { r with inWr := sendWr cfg c p numSge l, sgEntry := e } ∧
    Request.WrOk p { r with inWr := sendWr cfg c p numSge l, sgEntry := e } :=
  ⟨⟨rfl, rfl, rfl, rfl, rfl, rfl, rfl, rfl, rfl, fun _ _ _ => rfl⟩, rfl, by simp [hf, nowait_zero]; rfl⟩

theorem buildSendv_ok (c numSge : Nat) (l : SgList) (e : Option (List Sge)) :
    r.SameLife { r with inWr := sendWr cfg c p numSge l, sgv := e } ∧
    Request.WrOk p { r with inWr := sendWr cfg c p numSge l, sgv := e } :=
  ⟨⟨rfl, rfl, rfl, rfl, rfl, rfl, rfl, rfl, rfl, fun _ _ _ => rfl⟩, rfl, by simp [hf, nowait_zero]; rfl⟩

theorem buildRecvv_ok (n : Nat) (l : SgList) (e : Option (List Sge)) :
    r.SameLife { r with inWr := .rr ⟨p, n, l⟩, sgv := e } ∧
    Request.WrOk p { r with inWr := .rr ⟨p, n, l⟩, sgv := e } :=
  ⟨⟨rfl, rfl, rfl, rfl, rfl, rfl, rfl, rfl, rfl, fun _ _ _ => rfl⟩, rfl, by simp [hf, nowait_zero]; rfl⟩

theorem buildRecv_ok (buf : Nat) (size : Int) (reg : Reg) :
    let g := fun r : Request =>
      if cfg.enableUd then { r with
        inWr := .rr ⟨p, 2, .udSgEntry⟩
        udSgEntry := (⟨cfg.udPadding, 40, cfg.udPaddingKey⟩, ⟨buf, len32 size, reg.key⟩) }
      else { r with inWr := .rr ⟨p, 1, .sgEntry⟩, sgEntry := ⟨buf, len32 size, reg.key⟩ }
    r.SameLife (g r) ∧ (g r).WrOk p := by
  dsimp only
  split <;>
    exact ⟨⟨rfl, rfl, rfl, rfl, rfl, rfl, rfl, rfl, rfl, fun _ _ _ => rfl⟩, rfl, by simp [hf, nowait_zero]; rfl⟩

theorem buildGet_ok (op : Opcode) (win : Window) (c displ : Nat) (e : Sge) :
    r.SameLife { r with inWr := getWr op p win c displ, sgEntry := e } ∧
    Request.WrOk p { r with inWr := getWr op p win c displ, sgEntry := e } :=
  ⟨⟨rfl, rfl, rfl, rfl, rfl, rfl, rfl, rfl, rfl, fun _ _ _ => rfl⟩, rfl, by simp [hf, nowait_zero]; rfl⟩

end Builders

theorem buildPut_ok {p : Ptr} {r : Request} {fn : Fn} (ho : r.owner = some fn) (hfn : fn.isPut = true)
    (win : Window) (c displ flags : Nat) (e : Sge) :
    r.SameLife { r with flags := flags, inWr := putWr p win c displ flags, sgEntry := e } ∧
    Request.WrOk p { r with flags := flags, inWr := putWr p win c displ flags, sgEntry := e } := by
  refine ⟨⟨rfl, rfl, rfl, rfl, rfl, rfl, rfl, rfl, rfl, ?_⟩, rfl, rfl⟩
  intro fn' ho' hput
  rw [ho] at ho'
  cases ho'
  rw [hfn] at hput
  cases hput

/-! ## The posting calls of mp.c -/

section Calls
variable (hK : ∀ l a, l.Basic → K l a) (hG : Good {})
include hK hG

/-- The end of the posting calls: prepare the wait, or not. -/
theorem follows_prepareEnd {α : Type} {b : Mach} (hb : b.Built) (c : Nat) (f : Flow) (p : Ptr) (x : Int → α) (y : α) :
    Follows cfg Good K b (gdsPrepareWaitCq c f p >>= fun ret => if ret ≠ 0 then pure (x ret) else pure y)
      (fun _ d => d.Built) := by
  refine Follows.bind (follows_gdsPrepareWaitCq hK hG b c f p) ?_
  rintro ret d ⟨hd, -⟩
  have hd' : d.Built := by
    rcases hd with ⟨-, rfl⟩ | ⟨-, rfl⟩ <;> exact hb
  exact Follows.ite (fun _ => .pure hd') (fun _ => .pure hd')

theorem follows_mpIsend (buf : Nat) (size : Int) (peer : Nat) (reg : Reg) (a : Mach) (ha : a.cur = none) :
    Follows cfg Good K a (mpIsend cfg buf size peer reg) (fun _ b => b.Built) := by
  unfold mpIsend
  refine Follows.clientOf (fun c hc => ?_)
  refine Follows.start hK _ (fun _ _ => rfl) ha hc (by decide) rfl (.inr trivial) (by intro h; cases h)
    (fun p r hf _ => buildSend_ok hf c 1 .sgEntry _) (fun p b _ _ hb _ => ?_)
  refine Follows.bind (follows_mpPostSend hK hG isPending_nowait b hb.cur hb.at_) (fun ret d hd => ?_)
  have hd' := hd.built (built_of_cur hb.cur)
  refine Follows.ite (fun _ => .pure hd') (fun _ => ?_)
  dsimp only
  exact Follows.ite (fun _ => follows_prepareEnd hK hG hd' c .tx p _ _) (fun _ => .pure hd')

theorem follows_mpIrecv (buf : Nat) (size : Int) (peer : Nat) (reg : Reg) (a : Mach) (ha : a.cur = none) :
    Follows cfg Good K a (mpIrecv cfg buf size peer reg) (fun _ b => b.Built) := by
  unfold mpIrecv
  refine Follows.clientOf (fun c hc => ?_)
  refine Follows.start hK _ (fun _ _ => rfl) ha hc (by decide) rfl (.inr trivial) (by intro h; cases h)
    (fun p r hf _ => buildRecv_ok hf buf size reg) (fun p b _ _ hb _ => ?_)
  refine Follows.bind (follows_mpPostRecv hK hG isPending_nowait b hb.cur hb.at_) (fun ret d hd => ?_)
  have hd' := hd.built (built_of_cur hb.cur)
  refine Follows.ite (fun _ => .pure hd') (fun _ => ?_)
  dsimp only
  exact Follows.ite (fun _ => follows_prepareEnd hK hG hd' c .rx p _ _) (fun _ => .pure hd')

omit hK hG in
/-- After a post without retries. -/
theorem built_of_post {a b d : Mach} {p : Ptr} {st : State} {ret : Int} (ha : a.cur = some ⟨p, st, true⟩)
    (hb : b.cur = none) (h : ret = 0 ∧ d = b ∨ ret ≠ 0 ∧ d = a) : d.Built := by
  rcases h with ⟨-, rfl⟩ | ⟨-, rfl⟩
  · intro q st' hq
    rw [hb] at hq
    cases hq
  · exact built_of_cur ha

theorem follows_mpIsendv (v : List Iovec) (peer : Nat) (reg : Reg) (a : Mach) (ha : a.cur = none) :
    Follows cfg Good K a (mpIsendv cfg v peer reg) (fun _ b => b.Built) := by
  have ha' : a.Built := by intro p st; rw [ha]; simp
  unfold mpIsendv
  refine Follows.ite (fun _ => .pure ha') (fun _ => ?_)
  refine Follows.clientOf (fun c hc => ?_)
  refine Follows.start hK _ (fun _ _ => rfl) ha hc (by decide) rfl (.inr trivial) (by intro h; cases h)
    (fun p r hf _ => buildSendv_ok hf c v.length .sgv _) (fun p b _ _ hb _ => ?_)
  refine Follows.bind (follows_gdsPostSend hK hG hb.cur isPending_nowait hb.at_) (fun ret d hd => ?_)
  have hd' := built_of_post hb.cur rfl hd.1
  refine Follows.ite (fun _ => .pure hd') (fun _ => ?_)
  dsimp only
  exact Follows.ite (fun _ => follows_prepareEnd hK hG hd' c .tx p _ _) (fun _ => .pure hd')

theorem follows_mpIrecvv (v : List Iovec) (peer : Nat) (reg : Reg) (a : Mach) (ha : a.cur = none) :
    Follows cfg Good K a (mpIrecvv cfg v peer reg) (fun _ b => b.Built) := by
  have ha' : a.Built := by intro p st; rw [ha]; simp
  unfold mpIrecvv
  refine Follows.ite (fun _ => .pure ha') (fun _ => ?_)
  refine Follows.clientOf (fun c hc => ?_)
  refine Follows.start hK _ (fun _ _ => rfl) ha hc (by decide) rfl (.inr trivial) (by intro h; cases h)
    (fun p r hf _ => buildRecvv_ok hf v.length .sgv _) (fun p b _ _ hb _ => ?_)
  refine Follows.bind (follows_gdsPostRecv hK hG hb.cur isPending_nowait hb.at_) (fun ret d hd => ?_)
  have hd' := built_of_post hb.cur rfl hd.1
  refine Follows.ite (fun _ => .pure hd') (fun _ => ?_)
  dsimp only
  exact Follows.ite (fun _ => follows_prepareEnd hK hG hd' c .rx p _ _) (fun _ => .pure hd')

theorem follows_mpIput (src : Nat) (size : Int) (reg : Reg) (peer displ : Nat) (win : Window) (flags : Nat) (a : Mach)
    (ha : a.cur = none) :
    Follows cfg Good K a (mpIput cfg src size reg peer displ win flags) (fun _ b => b.Built) := by
  have ha' : a.Built := by intro p st; rw [ha]; simp
  unfold mpIput
  refine Follows.ite (fun _ => .pure ha') (fun _ => ?_)
  refine Follows.clientOf (fun c hc => ?_)
  refine Follows.require (fun _ _ _ => trivial) (fun _ => ?_)
  refine Follows.start hK _ (fun _ _ => rfl) ha hc (by decide) rfl (.inr trivial) (by intro h; cases h)
    (fun p r _ ho => buildPut_ok ho rfl win c displ flags _) (fun p b _ _ hb _ => ?_)
  refine Follows.bind (follows_mpPostSend hK hG isPending_nowait b hb.cur hb.at_) (fun ret d hd => ?_)
  have hd' := hd.built (built_of_cur hb.cur)
  refine Follows.ite (fun _ => .pure hd') (fun _ => ?_)
  dsimp only
  exact Follows.ite (fun _ => follows_prepareEnd hK hG hd' c .tx p _ _) (fun _ => .pure hd')

theorem follows_mpIget (dst : Nat) (size : Int) (reg : Reg) (peer displ : Nat) (win : Window) (a : Mach)
    (ha : a.cur = none) :
    Follows cfg Good K a (mpIget cfg dst size reg peer displ win) (fun _ b => b.Built) := by
  have ha' : a.Built := by intro p st; rw [ha]; simp
  unfold mpIget
  refine Follows.ite (fun _ => .pure ha') (fun _ => ?_)
  refine Follows.clientOf (fun c hc => ?_)
  refine Follows.require (fun _ _ _ => trivial) (fun _ => ?_)
  refine Follows.start hK _ (fun _ _ => rfl) ha hc (by decide) rfl (.inr trivial) (by intro h; cases h)
    (fun p r hf _ => buildGet_ok hf .wrRdmaRead win c displ _) (fun p b _ _ hb _ => ?_)
  refine Follows.bind (follows_gdsPostSend hK hG hb.cur isPending_nowait hb.at_) (fun ret d hd => ?_)
  have hd' := built_of_post hb.cur rfl hd.1
  refine Follows.ite (fun _ => .pure hd') (fun _ => ?_)
  exact follows_prepareEnd hK hG hd' c .tx p _ _

end Calls

end LibMp
