import LibMp.PingpongCalls

/- The runs of the ping-pong job refine an exchange of messages with credits.

   A receive that is posted is a buffer, `comm_send_ready` tells of it, the put is
   the notice; `comm_wait_ready` passes and `comm_isend` sends. What `comm_flush`
   must have seen to come back, all messages of the round, ends the round. -/
namespace LibMp

/-- The net of the ready tables. -/
def PingState.net (s : PingState) : Net := ⟨fun r => (s.comm r).ready, s.flying, [], s.log⟩

namespace Pingpong
variable {pp : Pingpong} {s s' : PingState} {c : Comm} {r p i : Nat} {op x : PingOp} {rest : List PingOp}
  {tape : List Ans}

/-- A rank of the job. -/
def Member (pp : Pingpong) (r : Nat) : Prop := r < pp.job.size

/-- The exchange behind a state. -/
def view (pp : Pingpong) (s : PingState) : Exchange Nat where
  posted a b := pp.done s b (.irecv a)
  told a b := pp.done s b (.sendReady a)
  notices := s.flying.map fun p => ⟨p.dst, p.src, p.no⟩
  heard a b := arrivedNo s.log a b
  passed a b := pp.done s a (.waitReady b)
  sent a b := pp.done s a (.isend b)
  arrived := s.arrived
  round r := (s.pos r).round

/-- Each rank is in order and in its place, the words of the ready tables are
counts of calls, and the exchange is in order. -/
structure PingInv (pp : Pingpong) (s : PingState) : Prop where
  place : ∀ r, pp.Member r → (s.pos r).In (pp.body r)
  rounds : ∀ r, pp.Member r → (s.pos r).round ≤ pp.totIters
  rank : ∀ r, pp.Member r → RankOk (pp.job.comm r).mp (s.comm r) ((s.pos r).steps (pp.body r))
  room : ∀ r, pp.Member r → (s.comm r).reqs.length ≤ (s.pos r).did.length
  ended : ∀ r, pp.Member r → (s.pos r).round = pp.totIters → (s.pos r).did = []
  ready : ReadyInv pp.job s.net
  sent : ∀ r p, pp.Member r → sentCount s.log r p = pp.done s r (.sendReady p)
  took : ∀ r p, pp.Member r → tookCount s.log r p = pp.done s r (.waitReady p)
  completes : ∀ r, pp.Member r → pp.Completes s r
  order : (pp.view s).Orderly pp.Member

/-- Each call is made once in an iteration. -/
theorem done_le (pp : Pingpong) (s : PingState) (r : Nat) (x : PingOp) : pp.done s r x ≤ (s.pos r).round + 1 :=
  Place.countIn_le (pp.body r) (s.pos r) x

namespace PingInv
variable (h : PingInv pp s) (hr : pp.Member r)
include h hr

theorem mem_of_todo (htodo : (s.pos r).todo = op :: rest) : op ∈ pp.body r := (h.place r hr).head_mem htodo

/-- The call was made once in each iteration that is over. -/
theorem done_head (htodo : (s.pos r).todo = op :: rest) : pp.done s r op = (s.pos r).round :=
  (h.place r hr).countIn_head (pp.body_nodup r) htodo

/-- A call that stands before it was made once more. -/
theorem done_before (htodo : (s.pos r).todo = op :: rest) (hx : [x, op].Sublist (pp.body r)) :
    pp.done s r x = (s.pos r).round + 1 :=
  (h.place r hr).countIn_before (pp.body_nodup r) htodo hx

/-- There are ids and there is room for the next call. -/
theorem able (hround : (s.pos r).round < pp.totIters) :
    (∀ d, ((s.comm r).sys.w.clients d).lastReqId < uintMax) ∧ (s.comm r).reqs.length < maxReqs := by
  have hlen := pp.body_length_le r
  have hiters : pp.totIters ≤ 128 := pp.iters
  have hsteps := (h.place r hr).steps_lt hround
  have hle : pp.totIters * (pp.body r).length ≤ 128 * 41 := Nat.mul_le_mul hiters hlen
  constructor
  · intro d
    have hid := (h.rank r hr).ids d
    calc ((s.comm r).sys.w.clients d).lastReqId ≤ (s.pos r).steps (pp.body r) := hid
      _ < 128 * 41 := Nat.lt_of_lt_of_le hsteps hle
      _ < uintMax := by decide
  · have hroom := h.room r hr
    have hdid : (s.pos r).did.length ≤ (pp.body r).length := by
      rw [← (h.place r hr).split, List.length_append]
      omega
    calc (s.comm r).reqs.length ≤ 41 := hroom.trans (hdid.trans hlen)
      _ < maxReqs := by decide

/-- The word a rank waits for is there exactly if the notice was heard. -/
theorem notReady_iff (hp : p < pp.job.size ∧ p ≠ r) (hround : (s.pos r).round < pp.totIters)
    (htodo : (s.pos r).todo = .waitReady p :: rest) :
    (s.comm r).ready.notReady p = false ↔ (s.pos r).round < arrivedNo s.log r p := by
  have hiters : pp.totIters ≤ 128 := pp.iters
  have hvalue := h.ready.took r p
  obtain ⟨harrived, htable⟩ := h.ready.table r p
  have htook := h.took r p hr
  have hsent := h.sent p r hp.1
  have hle := pp.done_le s p (.sendReady r)
  have hrounds := h.rounds p hp.1
  rw [h.done_head hr htodo] at htook
  have hready : (s.comm r).ready.notReady p = false ↔
      ¬ (s.net.tables r).readyTable p < (s.net.tables r).readyValues p := decide_eq_false_iff_not
  have hlog : s.net.log = s.log := rfl
  rw [hready, htable, hvalue]
  rw [hlog] at harrived ⊢
  rw [htook]
  omega

end PingInv

/-! ## A call comes back -/

/-- The net after a call. -/
def netAfter (pp : Pingpong) (s : PingState) (r : Nat) : PingOp → Net
  | .sendReady p => s.net.issue r p ⟨r, p, pp.job.tableAt p + 4 * r, (s.comm r).ready.remoteReadyValues p,
      sentCount s.log r p + 1⟩
  | .waitReady p => s.net.takeNow r p
  | _ => s.net

theorem net_afterCall (hr : pp.Member r) (hop : op ∈ pp.body r) (hret : Returned op (s.comm r) c) :
    (pp.afterCall s r op c).net = netAfter pp s r op := by
  have htables : (pp.afterCall s r op c).net.tables =
      Function.update s.net.tables r (op.readies (s.net.tables r)) := by
    funext q
    show (Function.update s.comm r c q).ready = _
    rw [Function.update_apply, Function.update_apply]
    split
    · exact hret.ready
    · rfl
  have hsame : op.readies (s.net.tables r) = s.net.tables r →
      (pp.afterCall s r op c).net.tables = s.net.tables := by
    intro he
    rw [htables, he, Function.update_eq_self]
  have hnet : ∀ n : Net, (pp.afterCall s r op c).net.tables = n.tables → (pp.afterCall s r op c).flying = n.flying →
      [] = n.waits → (pp.afterCall s r op c).log = n.log → (pp.afterCall s r op c).net = n := by
    rintro ⟨t, f, w, l⟩ h₁ h₂ h₃ h₄
    unfold PingState.net at h₁ ⊢
    rw [Net.mk.injEq]
    exact ⟨h₁, h₂, h₃, h₄⟩
  cases op with
  | sendReady p =>
    have hput := put_some pp (s.comm r).ready hr (peer_of_mem hop (p := p) (by tauto)) (sentCount s.log r p + 1)
    refine hnet _ htables ?_ rfl rfl
    show s.flying ++ (pp.job.put (s.comm r).ready r p (sentCount s.log r p + 1)).toList = _
    rw [hput]
    rfl
  | waitReady p => exact hnet _ htables (List.append_nil _) rfl (List.append_assoc s.log [_] [_]).symm
  | irecv p | isend p | flush => exact hnet _ (hsame rfl) (List.append_nil _) rfl (List.append_nil _)

theorem sentCount_afterCall (a b : Nat) : sentCount (pp.afterCall s r op c).log a b =
    sentCount s.log a b + if a = r ∧ PingOp.sendReady b = op then 1 else 0 := by
  show sentCount (s.log ++ events s r op) a b = _
  rw [sentCount_append]
  cases op with
  | sendReady p =>
    rw [events, sentCount_sent]
    simp
  | waitReady p => simp [events, sentCount]
  | _ => simp [events, sentCount]

theorem tookCount_afterCall (a b : Nat) : tookCount (pp.afterCall s r op c).log a b =
    tookCount s.log a b + if a = r ∧ PingOp.waitReady b = op then 1 else 0 := by
  show tookCount (s.log ++ events s r op) a b = _
  rw [tookCount_append]
  cases op with
  | waitReady p =>
    have hlist : ∀ x y : ReadyEv, [x, y] = [x] ++ [y] := fun _ _ => rfl
    rw [events, hlist, tookCount_append, tookCount_took, tookCount_released]
    simp
  | sendReady p => simp [events, tookCount]
  | _ => simp [events, tookCount]

/-- A call delivers nothing. -/
theorem arrivedNo_afterCall (a b : Nat) : arrivedNo (pp.afterCall s r op c).log a b = arrivedNo s.log a b := by
  show arrivedNo (s.log ++ events s r op) a b = _
  cases op with
  | sendReady p => rw [events, arrivedNo_append]
  | waitReady p =>
    have hlist : ∀ x y : ReadyEv, [x, y] = [x] ++ [y] := fun _ _ => rfl
    rw [events, hlist, ← List.append_assoc, arrivedNo_append, arrivedNo_append]
  | irecv p | isend p | flush => exact congrArg (fun l => arrivedNo l a b) (List.append_nil s.log)

theorem round_afterCall (hin : (s.pos r).In (pp.body r)) (htodo : (s.pos r).todo = op :: rest) (q : Nat) :
    ((pp.afterCall s r op c).pos q).round = (s.pos q).round + if q = r ∧ op = .flush then 1 else 0 := by
  show (Function.update s.pos r ((s.pos r).next (pp.body r)) q).round = _
  rw [Function.update_apply]
  split
  · rename_i hq
    have hround := Place.In.round_next (l := syncPosts pp.job.size r) hin (pp.body_nodup r) htodo
    rw [hq]
    simp only [true_and]
    exact hround
  · rename_i hq
    rw [if_neg (fun hh => hq hh.1)]
    rfl

/-- A table that is counted up at one place. -/
theorem eq_setAt {t t' : Nat → Nat → Nat} {a b : Nat} (h : ∀ x y, t' x y = t x y + if x = a ∧ y = b then 1 else 0) :
    t' = setAt t a b (t a b + 1) := by
  funext x y
  rw [h, setAt]
  split
  · rename_i hxy
    rw [hxy.1, hxy.2]
  · rfl

theorem setAt_add (t : Nat → Nat → Nat) (a b x y : Nat) :
    setAt t a b (t a b + 1) x y = t x y + if x = a ∧ y = b then 1 else 0 := by
  rw [← eq_setAt fun x y => rfl]

theorem eq_same {t t' : Nat → Nat → Nat} (h : ∀ x y, t' x y = t x y) : t' = t := by
  funext x y
  exact h x y

/-- What a call is in the exchange. -/
def moved (e : Exchange Nat) (r : Nat) : PingOp → Exchange Nat
  | .irecv p => { e with posted := setAt e.posted p r (e.posted p r + 1) }
  | .sendReady p => { e with
      told := setAt e.told p r (e.told p r + 1), notices := e.notices ++ [⟨p, r, e.told p r + 1⟩] }
  | .waitReady p => { e with passed := setAt e.passed r p (e.passed r p + 1) }
  | .isend p => { e with sent := setAt e.sent r p (e.sent r p + 1) }
  | .flush => { e with round := fun x => if x = r then e.round x + 1 else e.round x }

theorem PingInv.view_afterCall (h : PingInv pp s) (hr : pp.Member r) (htodo : (s.pos r).todo = op :: rest)
    (hret : Returned op (s.comm r) c) : pp.view (pp.afterCall s r op c) = moved (pp.view s) r op := by
  have hin := h.place r hr
  have hdone := done_afterCall hin htodo c
  -- each call is counted in one of the tables
  apply Exchange.ext
  case posted =>
    have hposted : ∀ a b, (pp.view (pp.afterCall s r op c)).posted a b =
      (pp.view s).posted a b + if b = r ∧ PingOp.irecv a = op then 1 else 0 := fun a b => hdone b _
    cases op with
    | irecv p => exact eq_setAt fun a b => by simpa [and_comm] using hposted a b
    | _ => exact eq_same fun a b => by simpa [moved] using hposted a b
  case told =>
    have htold : ∀ a b, (pp.view (pp.afterCall s r op c)).told a b =
      (pp.view s).told a b + if b = r ∧ PingOp.sendReady a = op then 1 else 0 := fun a b => hdone b _
    cases op with
    | sendReady p => exact eq_setAt fun a b => by simpa [and_comm] using htold a b
    | _ => exact eq_same fun a b => by simpa [moved] using htold a b
  case passed =>
    have hpassed : ∀ a b, (pp.view (pp.afterCall s r op c)).passed a b =
      (pp.view s).passed a b + if a = r ∧ PingOp.waitReady b = op then 1 else 0 := fun a b => hdone a _
    cases op with
    | waitReady p => exact eq_setAt fun a b => by simpa using hpassed a b
    | _ => exact eq_same fun a b => by simpa [moved] using hpassed a b
  case sent =>
    have hsent : ∀ a b, (pp.view (pp.afterCall s r op c)).sent a b =
      (pp.view s).sent a b + if a = r ∧ PingOp.isend b = op then 1 else 0 := fun a b => hdone a _
    cases op with
    | isend p => exact eq_setAt fun a b => by simpa using hsent a b
    | _ => exact eq_same fun a b => by simpa [moved] using hsent a b
  case round =>
    have hround : ∀ q, (pp.view (pp.afterCall s r op c)).round q =
      (pp.view s).round q + if q = r ∧ op = .flush then 1 else 0 := round_afterCall hin htodo
    funext q
    rw [hround]
    cases op with
    | flush =>
      show _ = if q = r then (pp.view s).round q + 1 else (pp.view s).round q
      by_cases hq : q = r <;> simp [hq]
    | _ => simp [moved]
  case notices =>
    have hnet := congrArg Net.flying (net_afterCall hr (h.mem_of_todo hr htodo) hret)
    change (pp.afterCall s r op c).flying = _ at hnet
    show (pp.afterCall s r op c).flying.map (fun p => (⟨p.dst, p.src, p.no⟩ : Notice Nat)) = _
    rw [hnet]
    cases op with
    | sendReady p =>
      have hsent := h.sent r p hr
      show (s.flying ++ [_]).map _ = _
      rw [List.map_append, hsent]
      rfl
    | _ => rfl
  case heard =>
    have hheard : (pp.view (pp.afterCall s r op c)).heard = (pp.view s).heard := eq_same arrivedNo_afterCall
    rw [hheard]
    cases op <;> rfl
  case arrived => cases op <;> rfl

/-- After a flush that came back all messages of the round are there. -/
theorem PingInv.flushed (h : PingInv pp s) (hr : pp.Member r) (htodo : (s.pos r).todo = .flush :: rest)
    (hrank : RankOk (pp.job.comm r).mp c i) (hret : Returned .flush (s.comm r) c)
    (hcomp : pp.Completes (pp.afterCall s r .flush c) r) (hp : p < pp.job.size ∧ p ≠ r) :
    (s.pos r).round < s.arrived p r ∧ (s.pos r).round < pp.done s r (.isend p) := by
  obtain ⟨j, hj⟩ := exists_client hp
  obtain ⟨hrecv, -⟩ := hcomp p j hj
  have hcomm : (pp.afterCall s r .flush c).comm r = c := Function.update_self ..
  have hmem : ∀ x : PingOp, x = .irecv p ∨ x = .isend p → x ∈ syncPosts pp.job.size r :=
    fun x hx => mem_syncPosts.mpr ⟨p, hp, by tauto⟩
  have hdone : ∀ x : PingOp, x = .irecv p ∨ x = .isend p → pp.done s r x = (s.pos r).round + 1 :=
    fun x hx => h.done_before hr htodo (before_flush (hmem x hx))
  -- nothing is outstanding, so the receive of this round is complete
  rw [hcomm, hrank.nothing_outstanding (hret.flushed rfl), done_afterCall (h.place r hr) htodo,
    hdone _ (.inl rfl), if_neg (by simp)] at hrecv
  have harrived : (s.pos r).round + 1 ≤ s.arrived p r := hrecv
  rw [hdone _ (.inr rfl)]
  omega

theorem PingInv.exchange_call (h : PingInv pp s) (hr : pp.Member r) (hround : (s.pos r).round < pp.totIters)
    (htodo : (s.pos r).todo = op :: rest) (hrank : RankOk (pp.job.comm r).mp c i) (hret : Returned op (s.comm r) c)
    (hcomp : pp.Completes (pp.afterCall s r op c) r) :
    Exchange.Step pp.Member (pp.view s) (pp.view (pp.afterCall s r op c)) := by
  have hop := h.mem_of_todo hr htodo
  have hhead := h.done_head hr htodo
  rw [h.view_afterCall hr htodo hret]
  cases op with
  | irecv p =>
    obtain ⟨hp, hne⟩ := peer_of_mem hop (p := p) (by tauto)
    exact .post ⟨hp, hr, hne⟩
  | sendReady p =>
    have hpeer := peer_of_mem hop (p := p) (by tauto)
    have hposted := h.done_before hr htodo (irecv_before_sendReady hpeer)
    refine .tell ⟨hpeer.1, hr, hpeer.2⟩ ?_ hhead.le
    show pp.done s r (.sendReady p) < pp.done s r (.irecv p)
    omega
  | waitReady p =>
    have hpeer := peer_of_mem hop (p := p) (by tauto)
    have hheard := (h.notReady_iff hr hpeer hround htodo).mp (hret.waited p rfl)
    refine .pass ⟨hr, hpeer.1, hpeer.2.symm⟩ ?_ hhead.le
    show pp.done s r (.waitReady p) < arrivedNo s.log r p
    omega
  | isend p =>
    have hpeer := peer_of_mem hop (p := p) (by tauto)
    have hpassed := h.done_before hr htodo (waitReady_before_isend hpeer)
    refine .send ⟨hr, hpeer.1, hpeer.2.symm⟩ ?_
    show pp.done s r (.isend p) < pp.done s r (.waitReady p)
    omega
  | flush =>
    exact .finish hr fun a ha => h.flushed hr htodo hrank hret hcomp ⟨ha.left, ha.ne⟩

/-- A call that came back leaves the job in order. -/
theorem PingInv.afterCall (h : PingInv pp s) (hr : pp.Member r) (hround : (s.pos r).round < pp.totIters)
    (htodo : (s.pos r).todo = op :: rest) (ht : Succeeds tape) {y : Int × Option Ptr}
    (hrun : (pp.call r op).run (pp.job.comm r) ((s.comm r).given tape []) = (.ok y, c))
    (hcomp : pp.Completes (pp.afterCall s r op c) r) : PingInv pp (pp.afterCall s r op c) := by
  have hop := h.mem_of_todo hr htodo
  have hin := h.place r hr
  obtain ⟨hid, hroom⟩ := h.able hr hround
  have hret : Returned op (s.comm r) c := returned hr hop hid hroom ht hrun
  have hdid := CommOp.did (pp.noEventSync r) (pp.call r op) ht hrun
  have hrank : RankOk (pp.job.comm r).mp c ((s.pos r).steps (pp.body r) + 1) :=
    (h.rank r hr).step (pp.noEventSync r) (call_handles r op) hdid hret.ids
  have hself : (pp.afterCall s r op c).pos r = (s.pos r).next (pp.body r) := Function.update_self ..
  have hcomm : (pp.afterCall s r op c).comm r = c := Function.update_self ..
  have hother : ∀ q, q ≠ r → (pp.afterCall s r op c).pos q = s.pos q ∧ (pp.afterCall s r op c).comm q = s.comm q :=
    fun q hq => ⟨Function.update_of_ne hq .., Function.update_of_ne hq ..⟩
  constructor
  case place =>
    intro q hq
    by_cases hqr : q = r
    · rw [hqr, hself]
      exact hin.next
    · rw [(hother q hqr).1]
      exact h.place q hq
  case rounds =>
    intro q hq
    have hle := h.rounds q hq
    rw [round_afterCall hin htodo]
    split
    · rename_i hqr
      rw [hqr.1]
      exact hround
    · exact hle
  case rank =>
    intro q hq
    by_cases hqr : q = r
    · rw [hqr, hself, hcomm, hin.steps_next]
      exact hrank
    · rw [(hother q hqr).1, (hother q hqr).2]
      exact h.rank q hq
  case room =>
    intro q hq
    by_cases hqr : q = r
    · rw [hqr, hself, hcomm]
      cases rest with
      | nil =>
        have hflush : op = .flush := (Place.In.rest_eq_nil_iff (l := syncPosts pp.job.size r) hin (pp.body_nodup r)
          htodo).mp rfl
        rw [hret.flushed hflush]
        exact Nat.zero_le _
      | cons z rest =>
        rw [Place.next_inner htodo, List.length_append]
        exact hret.room.trans (Nat.succ_le_succ (h.room r hr))
    · rw [(hother q hqr).1, (hother q hqr).2]
      exact h.room q hq
  case ended =>
    intro q hq hend
    by_cases hqr : q = r
    · rw [hqr] at hend ⊢
      rw [round_afterCall hin htodo] at hend
      -- the call has ended the round
      have hflush : op = .flush := by
        by_contra hne
        rw [if_neg (fun hh => hne hh.2)] at hend
        omega
      have hrest : rest = [] := (Place.In.rest_eq_nil_iff (l := syncPosts pp.job.size r) hin (pp.body_nodup r)
        htodo).mpr hflush
      rw [hself, Place.next_last (by rw [htodo, hrest])]
    · rw [(hother q hqr).1] at hend ⊢
      exact h.ended q hq hend
  case ready =>
    rw [net_afterCall hr hop hret]
    cases op with
    | sendReady p => exact h.ready.issue hr (put_some pp _ hr (peer_of_mem hop (p := p) (by tauto)) _)
    | waitReady p => exact (h.ready.take r p).addReleased _ _ _ _ h.ready.waits
    | irecv p | isend p | flush => exact h.ready
  case sent =>
    intro q p hq
    rw [sentCount_afterCall, done_afterCall hin htodo, h.sent q p hq]
  case took =>
    intro q p hq
    rw [tookCount_afterCall, done_afterCall hin htodo, h.took q p hq]
  case completes =>
    intro q hq
    by_cases hqr : q = r
    · rw [hqr]
      exact hcomp
    · intro peer j hj
      rw [done_afterCall hin htodo, done_afterCall hin htodo, (hother q hqr).2, if_neg (fun hh => hqr hh.1),
        if_neg (fun hh => hqr hh.1)]
      exact h.completes q hq peer j hj
  case order => exact h.order.step (h.exchange_call hr hround htodo hrank hret hcomp)

/-! ## A put or a message arrives -/

theorem PingInv.afterPut (h : PingInv pp s) {p : Put} (hp : s.flying[i]? = some p) :
    PingInv pp (pp.afterPut s i p) ∧ Exchange.Step pp.Member (pp.view s) (pp.view (pp.afterPut s i p)) := by
  have hcomm : ∀ q, ((pp.afterPut s i p).comm q).sys = (s.comm q).sys ∧
      ((pp.afterPut s i p).comm q).reqs = (s.comm q).reqs := by
    intro q
    show (Function.update s.comm p.dst _ q).sys = _ ∧ (Function.update s.comm p.dst _ q).reqs = _
    rw [Function.update_apply]
    split
    · rename_i hq
      rw [hq]
      exact ⟨rfl, rfl⟩
    · exact ⟨rfl, rfl⟩
  have hnet : (pp.afterPut s i p).net = s.net.deliver pp.job i p := by
    have htables : (pp.afterPut s i p).net.tables = (s.net.deliver pp.job i p).tables := by
      funext q
      show (Function.update s.comm p.dst _ q).ready = Function.update s.net.tables p.dst _ q
      rw [Function.update_apply, Function.update_apply]
      split <;> rfl
    rw [PingState.net, Net.mk.injEq]
    exact ⟨htables, rfl, rfl, rfl⟩
  have hview : pp.view (pp.afterPut s i p) = { pp.view s with
      heard := setAt (pp.view s).heard p.dst p.src p.no, notices := (pp.view s).notices.eraseIdx i } := by
    apply Exchange.ext
    case notices => exact (List.eraseIdx_map ..).symm
    case heard =>
      funext a b
      show arrivedNo (s.log ++ [.delivered p.src p.dst p.no]) a b = setAt (fun a b => arrivedNo s.log a b) _ _ _ a b
      rw [arrivedNo_append, setAt]
      simp only [and_comm, eq_comm]
    all_goals rfl
  have hstep : Exchange.Step pp.Member (pp.view s) (pp.view (pp.afterPut s i p)) := by
    rw [hview]
    have hx : (pp.view s).notices[i]? = some ⟨p.dst, p.src, p.no⟩ := by
      show (s.flying.map _)[i]? = _
      rw [List.getElem?_map, hp]
      rfl
    exact .hear hx
  refine ⟨⟨h.place, h.rounds, fun q hq => (h.rank q hq).same (hcomm q).1 (hcomm q).2, fun q hq => ?_, h.ended, ?_,
    fun q x hq => ?_, fun q x hq => ?_, fun q hq peer j hj => ?_, h.order.step hstep⟩, hstep⟩
  · rw [(hcomm q).2]
    exact h.room q hq
  · rw [hnet]
    exact h.ready.deliver hp
  · show sentCount (s.log ++ [_]) q x = _
    rw [sentCount_append, sentCount_delivered]
    exact h.sent q x hq
  · show tookCount (s.log ++ [_]) q x = _
    rw [tookCount_append, tookCount_delivered]
    exact h.took q x hq
  · rw [(hcomm q).1]
    exact h.completes q hq peer j hj

theorem PingInv.afterMessage (h : PingInv pp s) {a b : Nat} (ha : pp.Member a) (hb : pp.Member b) (hne : a ≠ b)
    (hsent : s.arrived a b < pp.done s a (.isend b)) :
    PingInv pp (afterMessage s a b) ∧ Exchange.Step pp.Member (pp.view s) (pp.view (Pingpong.afterMessage s a b)) := by
  have hstep : Exchange.Step pp.Member (pp.view s) (pp.view (Pingpong.afterMessage s a b)) :=
    .arrive (s := pp.view s) ⟨ha, hb, hne⟩ hsent
  have hmono : ∀ x y, s.arrived x y ≤ (Pingpong.afterMessage s a b).arrived x y := by
    intro x y
    show _ ≤ setAt s.arrived a b (s.arrived a b + 1) x y
    unfold setAt
    split
    · rename_i hxy
      rw [hxy.1, hxy.2]
      exact Nat.le_succ _
    · exact Nat.le_refl _
  refine ⟨⟨h.place, h.rounds, h.rank, h.room, h.ended, h.ready, h.sent, h.took, fun q hq peer j hj => ?_,
    h.order.step hstep⟩, hstep⟩
  obtain ⟨h₁, h₂⟩ := h.completes q hq peer j hj
  exact ⟨h₁.trans (Nat.add_le_add_right (hmono ..) _), h₂.trans (Nat.add_le_add_right (hmono ..) _)⟩

/-- A rank progresses inside a call. -/
theorem PingInv.poll (h : PingInv pp s) (hs : pp.Poll s s') : PingInv pp s' ∧ pp.view s' = pp.view s := by
  cases hs with
  | @wait r p rest tape c hr hround htodo ht hwait hcomp =>
    obtain ⟨hm, hready, hreqs, -⟩ := waited hwait
    have hself : (afterPoll s r c).comm r = c := Function.update_self ..
    have hother : ∀ q, q ≠ r → (afterPoll s r c).comm q = s.comm q := fun q hq => Function.update_of_ne hq ..
    have htables : (afterPoll s r c).net = s.net := by
      have hsame : (fun q => ((afterPoll s r c).comm q).ready) = fun q => (s.comm q).ready := by
        funext q
        by_cases hq : q = r
        · rw [hq, hself, hready]
        · rw [hother q hq]
      unfold PingState.net
      rw [hsame]
      rfl
    refine ⟨⟨h.place, h.rounds, fun q hq => ?_, fun q hq => ?_, h.ended, ?_, h.sent, h.took, fun q hq => ?_, h.order⟩,
      rfl⟩
    · by_cases hqr : q = r
      · rw [hqr, hself]
        exact (h.rank r hr).progress (pp.noEventSync r) hm hreqs
      · rw [hother q hqr]
        exact h.rank q hq
    · by_cases hqr : q = r
      · rw [hqr, hself, hreqs]
        exact h.room r hr
      · rw [hother q hqr]
        exact h.room q hq
    · rw [htables]
      exact h.ready
    · by_cases hqr : q = r
      · rw [hqr]
        exact hcomp
      · intro peer j hj
        rw [hother q hqr]
        exact h.completes q hq peer j hj

/-- A step of the job is a step of the exchange, and it keeps the job in order. -/
theorem PingInv.step (h : PingInv pp s) (hs : pp.Step s s') :
    PingInv pp s' ∧ Exchange.Step pp.Member (pp.view s) (pp.view s') := by
  cases hs with
  | @call r op rest tape y c hr hround htodo ht hrun hcomp =>
    refine ⟨h.afterCall hr hround htodo ht hrun hcomp, ?_⟩
    obtain ⟨hid, hroom⟩ := h.able hr hround
    have hret := returned hr (h.mem_of_todo hr htodo) hid hroom ht hrun
    have hdid := CommOp.did (pp.noEventSync r) (pp.call r op) ht hrun
    exact h.exchange_call hr hround htodo
      ((h.rank r hr).step (pp.noEventSync r) (call_handles r op) hdid hret.ids) hret hcomp
  | put hp => exact h.afterPut hp
  | message ha hb hne hsent => exact h.afterMessage ha hb hne hsent

end Pingpong

end LibMp
