import LibMp.AsyncCalls
import LibMp.PingpongRuns

/- The exchange behind a state of the job of `async_exchange`, the invariant of the
   job, and that the calls of the CPU keep it.

   A receive that is posted is a buffer, and a doorbell of the stream tells of it;
   the put is the notice, a wait of the stream passes, a doorbell sends; the round
   is over when the stream has passed the waits for the completions. What else the
   CPU does changes nothing in the exchange. -/
namespace LibMp

/-- The net of the ready tables. -/
def AsyncState.net (s : AsyncState) : Net := ⟨fun r => (s.rank r).comm.ready, s.flying, [], s.log⟩

/-- A put that is issued, before it leaves. -/
theorem ReadyInv.unrung {job : CommJob} {n : Net} {r q : Nat} {p : Put} (h : ReadyInv job n) (hr : r < job.size)
    (hp : job.put (n.tables r) r q (sentCount n.log r q + 1) = some p) :
    ReadyInv job { n.issue r q p with flying := n.flying } := by
  have hissued := h.issue hr hp
  exact ⟨hissued.sent, hissued.took, fun p' hp' => hissued.flying p' (List.mem_append_left _ hp'), hissued.table,
    hissued.waits⟩

namespace Asyncpong
variable {pp : Pingpong} {s s' : AsyncState} {k : AsyncRank} {c : Comm} {r p q i j : Nat} {op : AsyncOp}
  {rest : List AsyncOp} {a b : StreamAct} {l : List StreamAct} {x : Option Ptr} {tape : List Ans}

/-- The exchange behind a state. -/
def view (pp : Pingpong) (s : AsyncState) : Exchange Nat where
  posted a b := ((s.rank b).recvq a).length
  told a b := ran pp b (s.rank b) (.put a)
  notices := s.flying.map fun p => ⟨p.dst, p.src, p.no⟩
  heard a b := arrivedNo s.log a b
  passed a b := ran pp a (s.rank a) (.ready b)
  sent := s.sent
  arrived := s.arrived
  round r := (place pp r (s.rank r)).round

/-- The put with the number `no` from `r` to `p`. -/
def putNo (pp : Pingpong) (r p no : Nat) : Put := ⟨r, p, pp.job.tableAt p + 4 * r, no % 2 ^ 32, no⟩

/-- Each rank is in order, the puts that are held are those the stream has not
rung for, the words of the ready tables are counts, and the exchange is in order. -/
structure AsyncInv (pp : Pingpong) (s : AsyncState) : Prop where
  lane : ∀ r, pp.Member r → Lane pp r (s.rank r)
  ready : ReadyInv pp.job s.net
  told : ∀ r p, pp.Member r → sentCount s.log r p = called pp r (s.rank r) (.sendReady p)
  rung : ∀ r p, pp.Member r → ran pp r (s.rank r) (.put p) ≤ called pp r (s.rank r) (.sendReady p)
  held : ∀ r p, pp.Member r → (s.rank r).held p = (List.range' (ran pp r (s.rank r) (.put p) + 1)
    (called pp r (s.rank r) (.sendReady p) - ran pp r (s.rank r) (.put p))).map (putNo pp r p)
  sent : ∀ r p, pp.Member r → s.sent r p = ran pp r (s.rank r) (.send p)
  received : ∀ r p, pp.Member r → ran pp r (s.rank r) (.recvDone p) ≤ s.arrived p r
  delivered : ∀ r p, pp.Member r → ran pp r (s.rank r) (.sendDone p) ≤ s.arrived r p
  order : (view pp s).Orderly pp.Member

/-- The stream has at most the operations of all iterations. -/
theorem Lane.ops_length_le (h : Lane pp r k) : k.ops.length ≤ pp.totIters * (acts pp r).length := by
  rw [h.fed]
  by_cases hend : k.pos.round = pp.totIters
  · rw [Place.fed_of_did_nil (h.ended hend), hend]
    exact Nat.le_refl _
  · exact h.pos.fed_le (Nat.lt_of_le_of_ne h.rounds hend)

/-- What the stream of rank `r` does next; none if it has to wait. -/
def act (pp : Pingpong) (s : AsyncState) (r : Nat) : StreamAct → Option AsyncState
  | .put p => ringPut s r p
  | .ready p => if (place pp r (s.rank r)).round < arrivedNo s.log r p then some s else none
  | .send p => some { s with sent := setAt s.sent r p (s.sent r p + 1) }
  | .recvDone p => if (place pp r (s.rank r)).round < s.arrived p r then some s else none
  | .sendDone p => if (place pp r (s.rank r)).round < s.arrived r p then some s else none

/-- The entry number `j` is one of the first `n`. -/
theorem mem_take_iff {l : List Nat} {v n : Nat} (hnd : l.Nodup) (hj : l[j]? = some v) : v ∈ l.take n ↔ j < n := by
  obtain ⟨hlt, rfl⟩ := List.getElem?_eq_some_iff.mp hj
  constructor
  · intro hmem
    obtain ⟨i, hi, hv⟩ := List.mem_iff_getElem.mp hmem
    rw [List.length_take] at hi
    rw [List.getElem_take] at hv
    have hij := (List.Nodup.getElem_inj_iff hnd).mp hv
    omega
  · intro hn
    exact List.mem_iff_getElem.mpr ⟨j, by rw [List.length_take]; omega, List.getElem_take⟩

namespace AsyncInv
variable (h : AsyncInv pp s) (hr : pp.Member r)
include h hr

/-- No rank has told another more often than there are iterations, and once more. -/
theorem told_le (p : Nat) : sentCount s.log r p ≤ 129 := by
  have hiters : pp.totIters ≤ 128 := pp.iters
  have hle : called pp r (s.rank r) (.sendReady p) ≤ (s.rank r).pos.round + 1 := Place.countIn_le ..
  have hrounds := (h.lane r hr).rounds
  rw [h.told r p hr]
  omega

/-- The next operation on the stream is the one of its place. -/
theorem next_op {o : StreamOp} (ho : (s.rank r).ops[(s.rank r).ran]? = some o) :
    (place pp r (s.rank r)).round < pp.totIters ∧ ∃ a l, (place pp r (s.rank r)).todo = a :: l ∧
      Matches pp r (s.rank r) (place pp r (s.rank r)).round a o := by
  have hlt := (List.getElem?_eq_some_iff.mp ho).1
  exact ⟨Place.nth_round_lt (hlt.trans_le (h.lane r hr).ops_length_le), (h.lane r hr).ops _ o ho⟩

theorem exec_eq {o : StreamOp} (hround : (place pp r (s.rank r)).round < pp.totIters)
    (hp : a ∈ acts pp r) (hm : Matches pp r (s.rank r) (place pp r (s.rank r)).round a o) :
    exec pp s r o = act pp s r a := by
  cases hm with
  | put _ hty hpeer =>
    dsimp only [exec, act]
    rw [hty, hpeer]
  | send _ hty hpeer =>
    dsimp only [exec, act]
    rw [hty, hpeer]
  | @ready p =>
    have hiters : pp.totIters ≤ 128 := pp.iters
    obtain ⟨q, hq, hact⟩ := mem_streamActs.mp hp
    obtain rfl : p = q := by simpa using hact
    obtain ⟨harrived, htable⟩ := h.ready.table r p
    have hsent := h.told_le (show pp.Member p from hq.1) r
    have hword : (s.rank r).comm.ready.readyTable ((pp.job.tableAt r + 4 * p - pp.job.tableAt r) / 4) =
        arrivedNo s.log r p := by
      have hidx : (pp.job.tableAt r + 4 * p - pp.job.tableAt r) / 4 = p := by omega
      have hlog : s.net.log = s.log := rfl
      rw [hidx]
      refine htable.trans ?_
      rw [hlog] at harrived ⊢
      omega
    have hvalue : (1 + (place pp r (s.rank r)).round) % 2 ^ 32 = 1 + (place pp r (s.rank r)).round := by omega
    have hpass : streamGeq (arrivedNo s.log r p) (1 + (place pp r (s.rank r)).round) =
        decide ((place pp r (s.rank r)).round < arrivedNo s.log r p) := by
      have hlog : s.net.log = s.log := rfl
      rw [hlog] at harrived
      rw [(streamGeq_eq_holds (by omega) (by omega)).mpr (by omega)]
      show decide (1 + _ ≤ _) = _
      rw [Nat.add_comm]
      rfl
    dsimp only [exec, act]
    rw [hword, hvalue, hpass]
    simp
  | @recvDone p i n o hi ho =>
    have hids := ((h.lane r hr).ids p i hi).1
    have hpeer : (pp.job.comm r).mp.mpiRank i = p := Config.mpiRank_eq hi
    have hdone : completed pp s r ⟨n, i, .rx, o⟩ = decide ((place pp r (s.rank r)).round < s.arrived p r) := by
      dsimp only [completed]
      rw [hpeer]
      exact decide_eq_decide.mpr (mem_take_iff hids.nodup ho)
    dsimp only [exec, act]
    rw [hdone]
    simp
  | @sendDone p i n o hi ho =>
    have hids := ((h.lane r hr).ids p i hi).2
    have hpeer : (pp.job.comm r).mp.mpiRank i = p := Config.mpiRank_eq hi
    have hdone : completed pp s r ⟨n, i, .tx, o⟩ = decide ((place pp r (s.rank r)).round < s.arrived r p) := by
      dsimp only [completed]
      rw [hpeer]
      exact decide_eq_decide.mpr (mem_take_iff hids.nodup ho)
    dsimp only [exec, act]
    rw [hdone]
    simp

end AsyncInv

/-! ## A call comes back -/

section Call
variable (pp s r op x c)

theorem rank_afterCall (q : Nat) : (afterCall pp s r op x c).rank q =
    if q = r then rankAfter pp r (s.rank r) op x (puts pp s r op) c else s.rank q :=
  Function.update_apply ..

/-- The CPU runs nothing on a stream. -/
theorem place_afterCall (q : Nat) : place pp q ((afterCall pp s r op x c).rank q) = place pp q (s.rank q) := by
  rw [rank_afterCall]
  split
  · rename_i hq
    rw [hq]
    rfl
  · rfl

theorem ran_afterCall (q : Nat) (a : StreamAct) :
    ran pp q ((afterCall pp s r op x c).rank q) a = ran pp q (s.rank q) a := by
  rw [ran, place_afterCall]
  rfl

theorem sentCount_afterCall (q p : Nat) : sentCount (afterCall pp s r op x c).log q p =
    sentCount s.log q p + if q = r ∧ AsyncOp.sendReady p = op then 1 else 0 := by
  show sentCount (s.log ++ events r op) q p = _
  rw [sentCount_append]
  cases op with
  | sendReady p' =>
    rw [events, sentCount_sent]
    simp
  | waitReady p' => simp [events, sentCount]
  | _ => simp [events, sentCount]

/-- A call delivers nothing. -/
theorem arrivedNo_afterCall (a b : Nat) : arrivedNo (afterCall pp s r op x c).log a b = arrivedNo s.log a b := by
  show arrivedNo (s.log ++ events r op) a b = _
  cases op with
  | sendReady p | waitReady p => rw [events, arrivedNo_append]
  | _ => exact congrArg (fun l => arrivedNo l a b) (List.append_nil s.log)

end Call

section Call
variable (h : AsyncInv pp s) (hr : pp.Member r) (htodo : (s.rank r).pos.todo = op :: rest)
  (hret : Returned pp r (s.rank r) op x c (rankAfter pp r (s.rank r) op x (puts pp s r op) c))
include h hr htodo hret

omit h hr htodo in
theorem tables_afterCall : (afterCall pp s r op x c).net.tables =
    Function.update s.net.tables r (op.readies (s.net.tables r)) := by
  funext q
  show ((afterCall pp s r op x c).rank q).comm.ready = _
  rw [rank_afterCall, Function.update_apply]
  split
  · exact hret.ready
  · rfl

omit hret in
theorem called_afterCall (q : Nat) (o : AsyncOp) :
    called pp q ((afterCall pp s r op x c).rank q) o =
      called pp q (s.rank q) o + if q = r ∧ o = op then 1 else 0 := by
  rw [rank_afterCall]
  by_cases hq : q = r
  · subst hq
    rw [if_pos rfl, (h.lane q hr).called_after htodo]
    simp only [true_and]
  · rw [if_neg hq, if_neg (fun hh => hq hh.1)]
    rfl

theorem AsyncInv.ready_afterCall : ReadyInv pp.job (afterCall pp s r op x c).net := by
  have hop := (h.lane r hr).pos.head_mem htodo
  have htables := tables_afterCall hret
  have hsame : op.readies (s.net.tables r) = s.net.tables r → events r op = [] →
      (afterCall pp s r op x c).net = s.net := by
    intro he hev
    rw [he, Function.update_eq_self] at htables
    rw [AsyncState.net, Net.mk.injEq]
    refine ⟨htables, rfl, rfl, ?_⟩
    show s.log ++ events r op = s.log
    rw [hev, List.append_nil]
  cases op with
  | sendReady p =>
    have hpeer := peer_of_mem hop (p := p) (by tauto)
    obtain ⟨v, hv⟩ : ∃ v, pp.job.put (s.net.tables r) r p (sentCount s.net.log r p + 1) = some v :=
      ⟨_, Pingpong.put_some pp (s.net.tables r) hr hpeer (sentCount s.net.log r p + 1)⟩
    have hnet : (afterCall pp s r (.sendReady p) x c).net = { s.net.issue r p v with flying := s.net.flying } := by
      rw [AsyncState.net, Net.mk.injEq]
      exact ⟨htables, rfl, rfl, rfl⟩
    rw [hnet]
    exact h.ready.unrung hr hv
  | waitReady p =>
    have hnet : (afterCall pp s r (.waitReady p) x c).net = s.net.take r p := by
      rw [AsyncState.net, Net.mk.injEq]
      exact ⟨htables, rfl, rfl, rfl⟩
    rw [hnet]
    exact h.ready.take r p
  | _ =>
    rw [hsame rfl rfl]
    exact h.ready

/-- The put of a call is the next one. -/
theorem AsyncInv.puts_eq (hop : op = .sendReady p) :
    puts pp s r op = [putNo pp r p (called pp r (s.rank r) (.sendReady p) + 1)] := by
  subst hop
  have hpeer := peer_of_mem ((h.lane r hr).pos.head_mem htodo) (p := p) (by tauto)
  have hvalue : (s.rank r).comm.ready.remoteReadyValues p = (1 + sentCount s.log r p) % 2 ^ 32 := h.ready.sent r p
  have hput := Pingpong.put_some pp (s.rank r).comm.ready hr hpeer (sentCount s.log r p + 1)
  rw [puts, hput, hvalue, h.told r p hr, Nat.add_comm 1]
  rfl

theorem AsyncInv.held_afterCall (hq : pp.Member i) : ((afterCall pp s r op x c).rank i).held p =
    (List.range' (ran pp i (s.rank i) (.put p) + 1) (called pp i ((afterCall pp s r op x c).rank i) (.sendReady p) -
      ran pp i (s.rank i) (.put p))).map (putNo pp i p) := by
  have hold := h.held i p hq
  rw [called_afterCall h hr htodo, rank_afterCall]
  by_cases hir : i = r
  · subst hir
    rw [if_pos rfl]
    simp only [true_and]
    by_cases hop : op = .sendReady p
    · have hle := h.rung i p hr
      have hput := h.puts_eq hr htodo hret hop
      subst hop
      rw [if_pos rfl]
      show Function.update (s.rank i).held p _ p = _
      rw [Function.update_self, hput, hold, Nat.succ_sub hle, List.range'_1_concat, List.map_append]
      have hno : ran pp i (s.rank i) (.put p) + 1 + (called pp i (s.rank i) (.sendReady p) -
          ran pp i (s.rank i) (.put p)) = called pp i (s.rank i) (.sendReady p) + 1 := by omega
      rw [hno]
      rfl
    · rw [if_neg (fun he => hop he.symm)]
      refine Eq.trans ?_ hold
      cases op with
      | sendReady p' =>
        show Function.update (s.rank i).held p' _ p = _
        have hne : p ≠ p' := fun he => hop (he ▸ rfl)
        rw [Function.update_of_ne hne]
      | _ => rfl
  · rw [if_neg hir, if_neg (fun hh => hir hh.1)]
    exact hold

/-- What a call is in the exchange: only a receive is seen. -/
theorem AsyncInv.exchange_call (hround : (s.rank r).pos.round < pp.totIters) :
    Moves (Exchange.Step pp.Member) (view pp s) (view pp (afterCall pp s r op x c)) := by
  have hlane := h.lane r hr
  have hafter := hlane.after htodo hret hround
  have hposted : ∀ a b, (view pp (afterCall pp s r op x c)).posted a b =
      (view pp s).posted a b + if b = r ∧ AsyncOp.irecv a = op then 1 else 0 := by
    intro a b
    show (((afterCall pp s r op x c).rank b).recvq a).length = ((s.rank b).recvq a).length + _
    rw [rank_afterCall]
    by_cases hb : b = r
    · subst hb
      rw [if_pos rfl, hafter.recvq, hlane.recvq, hlane.called_after htodo]
      simp only [true_and]
    · rw [if_neg hb, if_neg (fun hh => hb hh.1)]
      rfl
  have hview : view pp (afterCall pp s r op x c) =
      { view pp s with posted := (view pp (afterCall pp s r op x c)).posted } := by
    apply Exchange.ext
    case told | passed =>
      funext a b
      exact ran_afterCall ..
    case heard =>
      funext a b
      exact arrivedNo_afterCall ..
    case round =>
      funext q
      exact congrArg Place.round (place_afterCall ..)
    all_goals rfl
  cases op with
  | irecv p =>
    have hpeer := peer_of_mem (hlane.pos.head_mem htodo) (p := p) (by tauto)
    have hset := Pingpong.eq_setAt (t := (view pp s).posted) (a := p) (b := r) fun a b => by
      simpa [and_comm] using hposted a b
    rw [hset] at hview
    rw [hview]
    exact .single (.post ⟨hpeer.1, hr, hpeer.2⟩)
  | _ =>
    have hsame := Pingpong.eq_same (t := (view pp s).posted) fun a b => by simpa using hposted a b
    rw [hsame] at hview
    rw [hview]

/-- A call that came back leaves the job in order. -/
theorem AsyncInv.afterCall (hround : (s.rank r).pos.round < pp.totIters) : AsyncInv pp (afterCall pp s r op x c) := by
  have hother : ∀ q, q ≠ r → (Asyncpong.afterCall pp s r op x c).rank q = s.rank q := fun q hq => by
    rw [rank_afterCall, if_neg hq]
  constructor
  case lane =>
    intro q hq
    by_cases hqr : q = r
    · rw [hqr, rank_afterCall, if_pos rfl]
      exact (h.lane r hr).after htodo hret hround
    · rw [hother q hqr]
      exact h.lane q hq
  case ready => exact h.ready_afterCall hr htodo hret
  case told =>
    intro q p hq
    rw [sentCount_afterCall, called_afterCall h hr htodo, h.told q p hq]
  case rung =>
    intro q p hq
    rw [ran_afterCall, called_afterCall h hr htodo]
    exact (h.rung q p hq).trans (Nat.le_add_right ..)
  case held =>
    intro q p hq
    rw [ran_afterCall]
    exact h.held_afterCall hr htodo hret hq
  case sent =>
    intro q p hq
    rw [ran_afterCall]
    exact h.sent q p hq
  case received =>
    intro q p hq
    rw [ran_afterCall]
    exact h.received q p hq
  case delivered =>
    intro q p hq
    rw [ran_afterCall]
    exact h.delivered q p hq
  case order => exact Exchange.orderly_moves (h.exchange_call hr htodo hret hround) h.order

end Call

end Asyncpong

end LibMp
