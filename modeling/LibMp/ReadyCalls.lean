import LibMp.CommRuns
import LibMp.Kernel
import LibMp.Ready
import LibMp.Windows

/- The calls of COMM for the ready protocol, by their code, on the ranks of a job:
   every run of them is a run of the net (`comm_calls_refine`).

   What a call has done is read off what it leaves: a put off the work request of
   the request it stores, the wait of a stream off the operation it has enqueued,
   the wait of a kernel off the descriptor it has stored. The answers of the outside
   are any; a call that does not come back ends its rank. Puts arrive and waits are
   released at any time, but for the calls themselves, in which nothing arrives: the
   wait on the CPU is its last turn (`commWaitReady_waits`). A put for which a stream
   rings later is in flight from the call on, as it may take any time. Besides, a rank
   may do whatever leaves its tables alone. -/
namespace LibMp

/-! ## The calls -/

/-- The calls of COMM on the ready tables. -/
inductive ReadyOp where
  | sendReady (rank : Nat)
  | sendReadyOnStream (rank : Nat) (st : Stream)
  | waitReady (rank : Nat)
  | testReady (rank : Nat)
  | waitReadyOnStream (rank : Nat) (st : Stream)
  | prepareWaitReady (rank : Nat)

/-- The program of a call: the request it stores, and `*p_rdy` of `comm_test_ready`. -/
def ReadyOp.run (cc : CommConfig) : ReadyOp → CM (Option Ptr × Bool)
  | sendReady rank => do return ((← commSendReady cc rank).2, false)
  | sendReadyOnStream rank st => do return ((← commSendReadyOnStream cc rank st).2, false)
  | waitReady rank => do
    let _ ← commWaitReady cc rank
    return (none, false)
  | testReady rank => do return (none, (← commTestReady cc rank).2)
  | waitReadyOnStream rank st => do
    let _ ← commWaitReadyOnStream cc rank st
    return (none, false)
  | prepareWaitReady rank => do
    let _ ← Kernel.commPrepareWaitReady cc rank
    return (none, false)

namespace CommJob
variable (job : CommJob) (r no : Nat)

/-- The put of the work request at `q`: where it goes, and its payload, which is
taken from the tables `t` at the call (`MP_PUT_INLINE`). -/
def putOf (t : ReadyTables) (q : Request) : Option Put :=
  match q.inWr with
  | .sr wr =>
    match wr.dest with
    | .rdma addr _ => some ⟨r, q.peer, addr, t.remoteReadyValues ((q.sgEntry.addr - job.sentAt r) / 4), no⟩
    | _ => none
  | .rr _ => none

/-- The wait that an operation of a stream makes on the ready table. -/
def streamWait (st : Stream) : StreamOp → Option PendingWait
  | .wait (.user addr) value .geq => some ⟨r, (addr - job.tableAt r) / 4, value, .stream st, no⟩
  | _ => none

/-- The wait that a kernel makes with a descriptor. -/
def kernelWait : KernelDesc → Option PendingWait
  | .isem32 ptr value => some ⟨r, (ptr - job.tableAt r) / 4, value, .kernel, no⟩
  | _ => none

end CommJob

/-! ## The ranks -/

/-- The ranks of a job, the puts in flight and the waits of streams and kernels. -/
structure ReadyRanks where
  comm : Nat → Comm
  flying : List Put
  waits : List PendingWait
  log : List ReadyEv

namespace ReadyRanks
variable (job : CommJob) (kernel : Nat → Nat → Bool) (k : ReadyRanks)

/-- Every rank has come back from `comm_init`. -/
def start : ReadyRanks := ⟨fun _ => Comm.init, [], [], []⟩

/-- The net of the ready tables. -/
def net : Net := ⟨fun r => (k.comm r).ready, k.flying, k.waits, k.log⟩

/-- The put a call of rank `r` has posted, if it stores `x` and leaves `c`. -/
def puts (r : Nat) (x : Option Ptr) (c : Comm) : ReadyOp → List Put
  | .sendReady p | .sendReadyOnStream p _ =>
    (x.bind fun q => job.putOf r (sentCount k.log r p + 1) (k.comm r).ready (c.sys.w.mem q)).toList
  | _ => []

/-- The wait it leaves to a stream or a kernel. -/
def newWaits (r : Nat) (c : Comm) : ReadyOp → List PendingWait
  | .waitReadyOnStream s st =>
    ((c.sys.w.streams st).todo.getLast?.bind (job.streamWait r (tookCount k.log r s + 1) st)).toList
  | .prepareWaitReady s =>
    let block := c.ring.current
    (job.kernelWait r (tookCount k.log r s + 1) (block.descs .ready (block.n .ready - 1))).toList
  | _ => []

/-- What it adds to the log. -/
def events (r : Nat) (rdy : Bool) : ReadyOp → List ReadyEv
  | .sendReady p | .sendReadyOnStream p _ => [.sent r p]
  | .waitReady s => [.took r s, .released r s (tookCount k.log r s + 1)]
  | .testReady s => if rdy then [.took r s, .released r s (tookCount k.log r s + 1)] else []
  | .waitReadyOnStream s _ | .prepareWaitReady s => [.took r s]

/-- A call of rank `r` has come back with `x` and has left `c`. -/
def afterCall (r : Nat) (op : ReadyOp) (x : Option Ptr × Bool) (c : Comm) : ReadyRanks where
  comm := Function.update k.comm r c
  flying := k.flying ++ puts job k r x.1 c op
  waits := k.waits ++ newWaits job k r c op
  log := k.log ++ events k r x.2 op

/-- A put is written to the table of its rank. -/
def afterPut (i : Nat) (p : Put) : ReadyRanks := { k with
  comm := Function.update k.comm p.dst { k.comm p.dst with
    ready := (k.comm p.dst).ready.store (job.tableAt p.dst) p.addr p.value }
  flying := k.flying.eraseIdx i
  log := k.log ++ [.delivered p.src p.dst p.no] }

/-- A call comes back, a rank does something else, a put arrives, or a wait is over. -/
inductive Step : ReadyRanks → Prop where
  | call {r op tape x c} : r < job.size → op.run (job.comm r) ((k.comm r).given tape []) = (.ok x, c) →
      Step (afterCall job k r op x c)
  | other {r c} : c.ready = (k.comm r).ready → Step { k with comm := Function.update k.comm r c }
  | put {i p} : k.flying[i]? = some p → Step (afterPut job k i p)
  | release {i w} : k.waits[i]? = some w →
      w.waiter.passes kernel ((k.comm w.rank).ready.readyTable w.slot) w.value = true →
      Step { k with waits := k.waits.eraseIdx i, log := k.log ++ [.released w.rank w.slot w.no] }

end ReadyRanks

/-! ## The put of a call -/

section Put
variable {cfg : Config} {src : Nat} {size : Int} {reg : Reg} {peer displ : Nat} {win : Window} {flags : Nat}
  {w : World} {tape : List Ans} {req : Option Ptr} {s' : Sys}

/-- The work request of a put that returned 0, on the CPU or on a stream. -/
theorem iput_posted {op : Op} (hop : op = .iput src size reg peer displ win flags ∨
      ∃ st, op = .iputOnStream src size reg peer displ win flags st)
    (h : op.run cfg ⟨w, tape⟩ = (.ok (0, req), s')) : cfg.enableUd = false ∧ ∃ c wr,
      cfg.clientIndex peer = some c ∧ displ < win.rsize c ∧ req = some w.nextFree ∧
      (s'.w.mem w.nextFree).inWr = .sr wr ∧ wr.dest = rdmaDest win c displ ∧
      (s'.w.mem w.nextFree).sgEntry.addr = src ∧ (s'.w.mem w.nextFree).peer = peer := by
  have hchecks : cfg.enableUd = false ∧ ∃ c, cfg.clientIndex peer = some c ∧ displ < win.rsize c := by
    rcases hop with rfl | ⟨st, rfl⟩ <;>
    · obtain ⟨hud, h₁⟩ := passes_ok h rfl
      obtain ⟨c, hc, h₂⟩ := clientOf_bind_ok h₁
      exact ⟨by simpa using hud, c, hc, of_decide_eq_true (require_bind_ok h₂).1⟩
  obtain ⟨hud, c, hc, hin⟩ := hchecks
  obtain ⟨j, hj, hpeer, hfn⟩ : ∃ j, op.recipe cfg = some j ∧ j.peer = peer ∧ j.fn ≠ .mpIsendv := by
    rcases hop with rfl | ⟨st, rfl⟩ <;> exact ⟨_, rfl, rfl, nofun⟩
  have ha : op.access = some ⟨size, displ, win⟩ := by
    rcases hop with rfl | ⟨st, rfl⟩ <;> rfl
  have hsrc : ((j.started cfg w c).mem w.nextFree).sgEntry.addr = src := by
    rcases hop with rfl | ⟨st, rfl⟩ <;> cases hj <;> simp [Recipe.started, rdmaRecipe, World.buildPut]
  -- the rest of the call has kept what was made
  obtain ⟨c', rest, hc', hm, hr⟩ := Op.run_makes hj h rfl
  rw [hpeer, hc] at hc'
  cases hc'
  obtain ⟨hreq, hk, hd⟩ := hm _ _ _ hr rfl
  obtain ⟨wr, hwr, hdest, -⟩ := Op.started_access ha hj w c
  have hmade := Op.started_made hj (by rw [hpeer]; exact hc) hk hd
  obtain ⟨hin', hsg⟩ := hk.sameWork w.nextFree
  refine ⟨hud, c, wr, hc, hin, by simpa [hfn] using hreq, hin'.trans hwr, hdest, ?_, hmade.peer.trans hpeer⟩
  rw [hsg, hsrc]

end Put

variable {job : CommJob} {kernel : Nat → Nat → Bool} {k k' : ReadyRanks} {cc : CommConfig} {c c' : Comm}
  {r p : Nat}

/-- The put that a call of rank `r` has posted for `p` is the one of the net. -/
theorem putOf_eq_put (t : ReadyTables) (no : Nat) {flags : Nat} {op : Op} {s s' : Sys} {req : Option Ptr}
    (hop : (readyPut (job.comm r) p fun src size reg peer displ win => op = .iput src size reg peer displ win flags) ∨
      ∃ st, readyPut (job.comm r) p fun src size reg peer displ win =>
        op = .iputOnStream src size reg peer displ win flags st)
    (h : op.run (job.comm r).mp s = (.ok (0, req), s')) :
    (job.cfg r).enableUd = false ∧ ∃ q x, req = some q ∧ job.put t r p no = some x ∧
      job.putOf r no t (s'.w.mem q) = some x := by
  obtain ⟨w, tape⟩ := s
  obtain ⟨hud, i, wr, hi, hin, hreq, hwr, hdest, hsrc, hpeer⟩ := iput_posted hop h
  refine ⟨hud, _, ⟨r, (job.comm r).mp.mpiRank i, ((job.comm r).readyTableWin.basePtr i + (job.comm r).commRank * 4)
    % 2 ^ 64, t.remoteReadyValues (((job.comm r).remoteReadyValues + 4 * p - job.sentAt r) / 4), no⟩, hreq, ?_, ?_⟩
  · unfold CommJob.put readyPut
    dsimp only
    rw [hi]
    dsimp only
    rw [if_pos hin]
  · unfold CommJob.putOf
    rw [hwr]
    dsimp only
    rw [hdest, hsrc, hpeer, Config.mpiRank_eq hi]
    rfl

/-! ## What the calls leave -/

/-- `comm_send_ready` has posted the put of the net, and takes the next value. -/
theorem commSendReady_ready {x : Int × Option Ptr} (no : Nat)
    (h : commSendReady (job.comm r) p c = (.ok x, c')) : p < job.size ∧ (job.cfg r).enableUd = false ∧
      c'.ready = c.ready.nextSent p ∧ ∃ q y, x.2 = some q ∧ job.put c.ready r p no = some y ∧
        job.putOf r no c.ready (c'.sys.w.mem q) = some y := by
  unfold commSendReady at h
  obtain ⟨hrank, h₂⟩ := commMpiRankToPeer_bind_ok h
  obtain ⟨⟨result, req⟩, y, hy, h₄⟩ := mpCall_bind_ok h₂
  obtain ⟨h0, h₆⟩ := check_bind_ok h₄
  cases h₆
  rw [h0] at hy
  obtain ⟨hud, hput⟩ := putOf_eq_put c.ready no (.inl rfl) hy
  exact ⟨hrank, hud, rfl, hput⟩

theorem commSendReadyOnStream_ready {x : Int × Option Ptr} {st : Stream} (no : Nat)
    (h : commSendReadyOnStream (job.comm r) p st c = (.ok x, c')) : p < job.size ∧ (job.cfg r).enableUd = false ∧
      c'.ready = c.ready.nextSent p ∧ ∃ q y, x.2 = some q ∧ job.put c.ready r p no = some y ∧
        job.putOf r no c.ready (c'.sys.w.mem q) = some y := by
  unfold commSendReadyOnStream at h
  obtain ⟨hrank, h₂⟩ := commMpiRankToPeer_bind_ok h
  obtain ⟨⟨result, req⟩, y, hy, h₄⟩ := mpCall_bind_ok h₂
  obtain ⟨h0, h₆⟩ := check_bind_ok h₄
  rw [h0] at hy
  obtain ⟨hud, q, z, rfl, hput, hof⟩ := putOf_eq_put c.ready no (.inr ⟨st, rfl⟩) hy
  obtain ⟨_, c₄, h₇, h₈⟩ := Prog.bind_eq_ok h₆
  obtain ⟨-, rfl⟩ := (Prog.wp_ok h₇).mp (commTrackRequest_spec _)
  cases h₈
  exact ⟨hrank, hud, rfl, q, z, rfl, hput, hof⟩

theorem commProgress_ready {ret : Int} (h : commProgress cc c = (.ok ret, c')) :
    c'.ready = c.ready ∧ c'.arrivals = c.arrivals := by
  unfold commProgress at h
  obtain ⟨_, c₁, h₁, h₂⟩ := Prog.bind_eq_ok h
  cases h₁
  obtain ⟨-, h₄⟩ := require_bind_ok h₂
  obtain ⟨y, -, rfl⟩ := mpCall_ok h₄
  exact ⟨rfl, rfl⟩

/-- `comm_wait_ready` comes back only when the table is ready. -/
theorem commWaitReady_silent {ret : Int} (hq : c.arrivals = []) (h : commWaitReady cc p c = (.ok ret, c')) :
    p < cc.commSize ∧ c.ready.notReady p = false ∧ c'.ready = c.ready.nextExpected p := by
  have hrank : p < cc.commSize := by
    unfold commWaitReady at h
    exact (commMpiRankToPeer_bind_ok h).1
  obtain ⟨d, hm, hready, rfl⟩ := commWaitReady_waits h
  have hsame : d.ready = c.ready ∧ d.arrivals = [] := by
    refine Moves.inv (I := fun e : Comm => e.ready = c.ready ∧ e.arrivals = []) ?_ hm ⟨rfl, hq⟩
    rintro a b ⟨hr, ha⟩ (hcons | ⟨-, hp⟩)
    · rw [ha] at hcons
      cases hcons
    · obtain ⟨hr', ha'⟩ := commProgress_ready hp
      exact ⟨hr'.trans hr, ha'.trans ha⟩
  rw [hsame.1] at hready ⊢
  exact ⟨hrank, hready, rfl⟩

/-- And it does come back then. -/
theorem commWaitReady_now (hrank : p < cc.commSize) (hnone : c.arrivals = [])
    (hready : c.ready.notReady p = false) :
    commWaitReady cc p c = (.ok 0, { c with ready := c.ready.nextExpected p }) := by
  have hlook : look c = (.ok c.ready, c) := by rw [look, hnone]
  have hloop : waitReadyLoop cc p (c.arrivals.length + 1) 0 c = (.ok (), c) := by
    rw [waitReadyLoop, Prog.bind_ok hlook, hready]
    rfl
  have hget : (Prog.get : CM Comm) c = (.ok c, c) := rfl
  rw [commWaitReady, Prog.bind_ok (commMpiRankToPeer_run hrank c), Prog.bind_ok hget, Prog.bind_ok hloop]
  rfl

/-- `comm_test_ready` takes its value if it succeeds, and nothing otherwise. -/
theorem commTestReady_ready {x : Int × Bool} (hq : c.arrivals = []) (h : commTestReady cc p c = (.ok x, c')) :
    p < cc.commSize ∧ x.2 = !c.ready.notReady p ∧
      c'.ready = if x.2 then c.ready.nextExpected p else c.ready := by
  unfold commTestReady at h
  obtain ⟨hrank, h₂⟩ := commMpiRankToPeer_bind_ok h
  obtain ⟨t, c₂, h₃, h₄⟩ := Prog.bind_eq_ok h₂
  have hlook : look c = (.ok c.ready, c) := by rw [look, hq]
  rw [hlook] at h₃
  cases h₃
  refine ⟨hrank, ?_⟩
  cases hr : c.ready.notReady p with
  | true =>
    rw [hr, if_pos rfl] at h₄
    cases h₄
    exact ⟨rfl, rfl⟩
  | false =>
    rw [hr, if_neg (by decide)] at h₄
    cases h₄
    exact ⟨rfl, rfl⟩

theorem mpWait32OnStream_ok {addr value : Nat} {st : Stream} {s s' : Sys}
    (h : mpWait32OnStream addr value mpWaitGeq st s = (.ok 0, s')) :
    s'.w = s.w.enqueue st [.wait (.user addr) value .geq] := by
  unfold mpWait32OnStream at h
  rw [if_pos (.inr (.inl rfl))] at h
  obtain ⟨s₁, h₁, h₂⟩ := Prog.andThen_ok h
  rw [gdsStreamPostDescriptors_ok h₂, returnCode_ok h₁]

/-- `comm_wait_ready_on_stream` enqueues the wait for the value it takes. -/
theorem commWaitReadyOnStream_ready {st : Stream} {ret : Int} (h : commWaitReadyOnStream cc p st c = (.ok ret, c')) :
    p < cc.commSize ∧ c'.ready = c.ready.nextExpected p ∧
    c'.sys.w = c.sys.w.enqueue st [.wait (.user (cc.readyTable + 4 * p)) (c.ready.readyValues p) .geq] := by
  unfold commWaitReadyOnStream at h
  obtain ⟨hrank, h₂⟩ := commMpiRankToPeer_bind_ok h
  obtain ⟨_, c₂, h₃, h₄⟩ := Prog.bind_eq_ok h₂
  cases h₃
  obtain ⟨result, y, hy, h₆⟩ := mpCall_bind_ok h₄
  obtain ⟨h0, h₈⟩ := check_bind_ok h₆
  cases h₈
  rw [h0] at hy
  exact ⟨hrank, rfl, mpWait32OnStream_ok hy⟩

/-- It does so where nothing fails. -/
theorem commWaitReadyOnStream_runs (hrank : p < cc.commSize) (st : Stream) (ht : Succeeds c.sys.tape) :
    ∃ tape, Succeeds tape ∧ commWaitReadyOnStream cc p st c = (.ok 0, { c with
      sys := ⟨c.sys.w.enqueue st [.wait (.user (cc.readyTable + 4 * p)) (c.ready.readyValues p) .geq], tape⟩
      ready := c.ready.nextExpected p }) := by
  have hwait : mpWait32OnStream (cc.readyTable + 4 * p) (c.ready.readyValues p) mpWaitGeq st c.sys = (.ok 0,
      ⟨c.sys.w.enqueue st [.wait (.user (cc.readyTable + 4 * p)) (c.ready.readyValues p) .geq],
        c.sys.tape.tail.tail⟩) := by
    rw [mpWait32OnStream, if_pos (.inr (.inl rfl))]
    refine (Prog.bind_ok (returnCode_run ht c.sys.w) _).trans ?_
    rw [if_neg (by decide), gdsStreamPostDescriptors]
    exact Prog.bind_ok (returnCode_run ht.tail c.sys.w) _
  refine ⟨c.sys.tape.tail.tail, ht.tail.tail, ?_⟩
  have hget : (Prog.get : CM Comm) c = (.ok c, c) := rfl
  rw [commWaitReadyOnStream, Prog.bind_ok (commMpiRankToPeer_run hrank c), Prog.bind_ok hget, checked_runs hwait]
  rfl

/-- `comm_prepare_wait_ready` hands the same to a kernel. -/
theorem commPrepareWaitReady_ready {ret : Int} (h : Kernel.commPrepareWaitReady cc p c = (.ok ret, c')) :
    p < cc.commSize ∧ c'.ready = c.ready.nextExpected p ∧
    c'.ring.current.descs .ready (c'.ring.current.n .ready - 1) =
      .isem32 (cc.readyTable + 4 * p) (c.ready.readyValues p) := by
  unfold Kernel.commPrepareWaitReady at h
  obtain ⟨hrank, h₂⟩ := commMpiRankToPeer_bind_ok h
  obtain ⟨i, c₁, h₃, h₄⟩ := Prog.bind_eq_ok h₂
  obtain ⟨rfl, hring, hp, hsame⟩ := (Prog.wp_ok h₃).mp (nextDesc_spec .ready)
  obtain ⟨⟨_, ptr, value⟩, c₂, h₅, h₆⟩ := Prog.bind_eq_ok h₄
  -- the value is taken with the descriptor
  obtain ⟨-, h₇⟩ := commMpiRankToPeer_bind_ok h₅
  obtain ⟨_, c₃, h₈, h₉⟩ := Prog.bind_eq_ok h₇
  cases h₈
  obtain ⟨result, y, hy, h₁₀⟩ := mpCall_bind_ok h₉
  obtain ⟨-, h₁₁⟩ := check_bind_ok h₁₀
  cases h₁₁
  obtain ⟨_, c₄, h₁₂, h₁₃⟩ := Prog.bind_eq_ok h₆
  cases h₁₃
  obtain ⟨-, hring₂, hsame₂⟩ := (Prog.wp_ok h₁₂).mp (storeDesc_spec (by exact hp) _ _ _)
  refine ⟨hrank, ?_, ?_⟩
  · rw [hsame₂.ready]
    exact congrArg (fun t => t.nextExpected p) hsame.ready
  · rw [hring₂, Ring.fill_current]
    change (CommDevDescs.store c₁.ring.current _ _ _).descs .ready (c₁.ring.current.n .ready - 1) = _
    rw [hring, Ring.fill_current, ← hsame.ready]
    simp [CommDevDescs.store, CommDevDescs.bump]

/-! ## Every run of the calls is a run of the net -/

namespace ReadyRanks

theorem net_update (f : List Put) (w : List PendingWait) (l : List ReadyEv) (k : ReadyRanks) (r : Nat) (c : Comm) :
    net ⟨Function.update k.comm r c, f, w, l⟩ = ⟨Function.update k.net.tables r c.ready, f, w, l⟩ := by
  have htables : (fun q => (Function.update k.comm r c q).ready) = Function.update k.net.tables r c.ready := by
    funext q
    rw [Function.update_apply, Function.update_apply]
    split <;> rfl
  show Net.mk _ f w l = _
  rw [htables]

theorem net_sendReady {y : Put} (hr : r < job.size) (hp : p < job.size) (hud : (job.cfg r).enableUd = false)
    (hput : job.put (k.comm r).ready r p (sentCount k.log r p + 1) = some y) :
    k.net.sendReady job r p = some (k.net.issue r p y) := by
  unfold Net.sendReady
  rw [if_pos ⟨hr, hp, hud⟩]
  exact congrArg (Option.map (k.net.issue r p)) hput

/-- A rank tells another. -/
theorem net_send {x : Option Ptr} {q : Ptr} {y : Put} {op : ReadyOp}
    (hop : op = .sendReady p ∨ ∃ st, op = .sendReadyOnStream p st) (hx : x = some q)
    (hof : job.putOf r (sentCount k.log r p + 1) (k.comm r).ready (c'.sys.w.mem q) = some y)
    (hready : c'.ready = (k.comm r).ready.nextSent p) :
    (afterCall job k r op (x, false) c').net = k.net.issue r p y := by
  have hputs : puts job k r x c' op = [y] := by
    rcases hop with rfl | ⟨st, rfl⟩ <;>
    · show (x.bind _).toList = _
      rw [hx, Option.bind_some, hof]
      rfl
  have hwaits : newWaits job k r c' op = [] := by rcases hop with rfl | ⟨st, rfl⟩ <;> rfl
  have hev : events k r false op = [.sent r p] := by rcases hop with rfl | ⟨st, rfl⟩ <;> rfl
  unfold afterCall
  rw [net_update, hready, hputs, hwaits, hev, List.append_nil]
  rfl

theorem net_takeNow (k : ReadyRanks) (r s : Nat) : k.net.takeNow r s =
    ⟨Function.update k.net.tables r ((k.comm r).ready.nextExpected s), k.flying ++ [], k.waits ++ [],
      k.log ++ [.took r s, .released r s (tookCount k.log r s + 1)]⟩ := by
  rw [List.append_nil, List.append_nil, List.append_cons]
  rfl

/-- The wait left to a stream, off the operation at the end of what it has to do. -/
theorem newWaits_stream {s : Nat} {st : Stream} {value : Nat}
    (hw : c'.sys.w = (k.comm r).sys.w.enqueue st [.wait (.user ((job.comm r).readyTable + 4 * s)) value .geq]) :
    newWaits job k r c' (.waitReadyOnStream s st) = [⟨r, s, value, .stream st, tookCount k.log r s + 1⟩] := by
  have hlast : (c'.sys.w.streams st).todo.getLast? =
      some (.wait (.user ((job.comm r).readyTable + 4 * s)) value .geq) := by
    rw [hw]
    simp [World.enqueue]
  have hslot : (job.tableAt r + 4 * s - job.tableAt r) / 4 = s := by omega
  unfold newWaits
  dsimp only
  rw [hlast]
  show [PendingWait.mk r ((job.tableAt r + 4 * s - job.tableAt r) / 4) value (.stream st) _] = _
  rw [hslot]

/-- The wait left to a kernel, off the descriptor stored last. -/
theorem newWaits_kernel {s value : Nat}
    (hdesc : c'.ring.current.descs .ready (c'.ring.current.n .ready - 1) =
      .isem32 ((job.comm r).readyTable + 4 * s) value) :
    newWaits job k r c' (.prepareWaitReady s) = [⟨r, s, value, .kernel, tookCount k.log r s + 1⟩] := by
  have hslot : (job.tableAt r + 4 * s - job.tableAt r) / 4 = s := by omega
  unfold newWaits
  dsimp only
  rw [hdesc]
  show [PendingWait.mk r ((job.tableAt r + 4 * s - job.tableAt r) / 4) value .kernel _] = _
  rw [hslot]

/-- A step of the ranks is an event of the net, or none. -/
theorem Step.net (h : Step job kernel k k') : NetMoves job kernel k.net k'.net := by
  cases h with
  | @call r op tape x c hr hrun =>
    cases op with
    | sendReady p =>
      obtain ⟨⟨ret, q⟩, c₁, h₁, h₂⟩ := Prog.bind_eq_ok hrun
      cases h₂
      obtain ⟨hp, hud, hready, q, y, hq, hput, hof⟩ := commSendReady_ready (sentCount k.log r p + 1) h₁
      refine .single ⟨.sendReady r p, ?_⟩
      rw [net_send (.inl rfl) hq hof hready]
      exact net_sendReady hr hp hud hput
    | sendReadyOnStream p st =>
      obtain ⟨⟨ret, q⟩, c₁, h₁, h₂⟩ := Prog.bind_eq_ok hrun
      cases h₂
      obtain ⟨hp, hud, hready, q, y, hq, hput, hof⟩ := commSendReadyOnStream_ready (sentCount k.log r p + 1) h₁
      refine .single ⟨.sendReadyOnStream r p st, ?_⟩
      rw [net_send (.inr ⟨st, rfl⟩) hq hof hready]
      exact net_sendReady hr hp hud hput
    | waitReady s =>
      obtain ⟨ret, c₁, h₁, h₂⟩ := Prog.bind_eq_ok hrun
      cases h₂
      obtain ⟨hs, hready, hnext⟩ := commWaitReady_silent (c := (k.comm r).given tape []) rfl h₁
      refine .single ⟨.waitReady r s, ?_⟩
      show (if _ then _ else _) = _
      rw [if_pos ⟨hr, hs, hready⟩, afterCall, net_update, hnext]
      exact congrArg some (net_takeNow k r s)
    | testReady s =>
      obtain ⟨⟨ret, rdy⟩, c₁, h₁, h₂⟩ := Prog.bind_eq_ok hrun
      cases h₂
      obtain ⟨hs, hrdy, hnext⟩ := commTestReady_ready (c := (k.comm r).given tape []) rfl h₁
      refine .single ⟨.testReady r s, ?_⟩
      show (if _ then _ else _) = _
      rw [if_pos ⟨hr, hs⟩, afterCall, net_update, hnext]
      dsimp only at hrdy ⊢
      cases hnot : (k.net.tables r).notReady s with
      | true =>
        obtain rfl : rdy = false := hrdy.trans (congrArg not hnot)
        rw [if_pos rfl, if_neg (by decide)]
        refine congrArg some ?_
        show k.net = Net.mk (Function.update k.net.tables r (k.net.tables r)) (k.flying ++ []) (k.waits ++ [])
          (k.log ++ [])
        rw [Function.update_eq_self, List.append_nil, List.append_nil, List.append_nil]
        rfl
      | false =>
        obtain rfl : rdy = true := hrdy.trans (congrArg not hnot)
        rw [if_neg (by decide), if_pos rfl]
        exact congrArg some (net_takeNow k r s)
    | waitReadyOnStream s st =>
      obtain ⟨ret, c₁, h₁, h₂⟩ := Prog.bind_eq_ok hrun
      cases h₂
      obtain ⟨hs, hnext, hw⟩ := commWaitReadyOnStream_ready h₁
      refine .single ⟨.waitReadyOnStream r s st, ?_⟩
      show (if _ then _ else _) = _
      rw [if_pos ⟨hr, hs⟩, afterCall, net_update, hnext, newWaits_stream hw]
      simp only [puts, events, List.append_nil]
      rfl
    | prepareWaitReady s =>
      obtain ⟨ret, c₁, h₁, h₂⟩ := Prog.bind_eq_ok hrun
      cases h₂
      obtain ⟨hs, hnext, hdesc⟩ := commPrepareWaitReady_ready h₁
      refine .single ⟨.prepareWaitReady r s, ?_⟩
      show (if _ then _ else _) = _
      rw [if_pos ⟨hr, hs⟩, afterCall, net_update, hnext, newWaits_kernel hdesc]
      simp only [puts, events, List.append_nil]
      rfl
  | @other r c hready =>
    rw [net_update, hready]
    have hsame : Function.update k.net.tables r (k.comm r).ready = k.net.tables := Function.update_eq_self ..
    rw [hsame]
    exact .refl
  | @put i p hp =>
    refine .single ⟨.deliver i, ?_⟩
    rw [afterPut, net_update]
    show k.flying[i]?.map _ = _
    rw [hp]
    rfl
  | @release i w hw hpass =>
    refine .single ⟨.release i, ?_⟩
    have hw' : k.net.waits[i]? = some w := hw
    rw [Net.step, hw']
    exact if_pos hpass

/-- Every run of the calls, of the arrivals and of the releases is a run of the net. -/
theorem comm_calls_refine (h : Moves (Step job kernel) start k) : NetMoves job kernel Net.init k.net :=
  Relation.ReflTransGen.lift' net (fun _ _ hs => Step.net hs) _ _ h

/-- Rank 0 tells rank 1, which waits on the CPU when the put has arrived. -/
example : ∃ k, Moves (Step twoRanks streamGeq) start k ∧
    k.log = [.sent 0 1, .delivered 0 1 1, .took 1 0, .released 1 0 1] := by
  let told := (ReadyOp.run (twoRanks.comm 0) (.sendReady 1) ((start.comm 0).given [] [])).2
  let flying := afterCall twoRanks start 0 (.sendReady 1) (some 0, false) told
  let arrived := afterPut twoRanks flying 0 ⟨0, 1, 4096, 1, 1⟩
  have htell : Step twoRanks streamGeq start flying := @Step.call twoRanks _ _ 0 _ [] _ _ (by decide) rfl
  have hput : Step twoRanks streamGeq flying arrived := .put rfl
  have hwait : Step twoRanks streamGeq arrived _ :=
    @Step.call twoRanks _ _ 1 (.waitReady 0) [] (none, false) _ (by decide) rfl
  exact ⟨_, ((Relation.ReflTransGen.single htell).tail hput).tail hwait, rfl⟩

/-- So the credits of the net are those of the calls. -/
theorem comm_calls_credits (hk : KernelWaits kernel) (h : Moves (Step job kernel) start k) :
    ReadyInv job k.net ∧ NumberedNet k.net ∧ ReleasedOk k.log := releasedOk_moves hk (comm_calls_refine h)

end ReadyRanks

end LibMp
