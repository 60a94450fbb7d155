import LibMp.Refused
import LibMp.ReadyNet

/- Windows for one-sided calls (mp.c): what a rank knows of the windows of its
   peers after `mp_window_create`, and the part of a window that a put or get
   reaches.

   Every rank puts the address, the key and the size of its own window into its
   slot of `exchange_win`, all ranks exchange their slots, and each rank copies
   the slots of its peers into `base_ptr`, `rkey` and `rsize`, by client index.
   The size goes through an `int` on the way. A put or get checks that its
   displacement is below `rsize` and lets the work request start there. -/
namespace LibMp
variable {cfg : Config}

/-! ## Creating a window -/

/-- `exchange_win_info`. -/
structure ExchangeWinInfo where
  baseAddr : Nat := 0
  rkey : Nat := 0
  size : Int := 0

/-- One rank's call of `mp_window_create`: its arguments, the key `mp_register`
gives the memory, and what stands in `exchange_win` and in the arrays of the
window after `malloc`. -/
structure WindowCall where
  addr : Nat
  size : Nat
  rkey : Nat
  junk : Nat → ExchangeWinInfo := fun _ => {}
  arrays : Window := ⟨fun _ => 0, fun _ => 0, fun _ => 0⟩
  size_lt : size < 2 ^ 64

/-- `exchange_win` of rank `a` before the exchange. -/
def WindowCall.exchangeWin (call : WindowCall) (a : Nat) : Nat → ExchangeWinInfo :=
  Function.update call.junk a ⟨call.addr, call.rkey, toInt call.size⟩

/-- `MPI_Allgather` in place: slot `b` of every rank gets what rank `b` had
there. -/
def allgather (n : Nat) (ex : Nat → Nat → ExchangeWinInfo) (a b : Nat) : ExchangeWinInfo :=
  if b < n then ex b b else ex a b

/-- One round of the loop that fills in the window. -/
def Window.fill (cfg : Config) (ex : Nat → ExchangeWinInfo) (win : Window) (i : Nat) : Window where
  basePtr := Function.update win.basePtr i (ex (cfg.mpiRank i)).baseAddr
  rkey := Function.update win.rkey i (ex (cfg.mpiRank i)).rkey
  rsize := Function.update win.rsize i (toUint64 (ex (cfg.mpiRank i)).size)

/-- `for (i = 0; i < client_count; i++)`. -/
def Window.populate (cfg : Config) (ex : Nat → ExchangeWinInfo) (win : Window) : Nat → Window
  | 0 => win
  | n + 1 => (win.populate cfg ex n).fill cfg ex n

/-- The window `mp_window_create` makes on rank `a` of `n`, when all ranks make
the calls `calls`. -/
def exchangeWindows (cfg : Config) (n : Nat) (calls : Nat → WindowCall) (a : Nat) : Window :=
  (calls a).arrays.populate cfg (allgather n (fun b => (calls b).exchangeWin b) a) cfg.clientCount

/-- The loop has filled in every index it has passed. -/
theorem Window.populate_get (ex : Nat → ExchangeWinInfo) (win : Window) {n i : Nat} (hi : i < n) :
    (win.populate cfg ex n).basePtr i = (ex (cfg.mpiRank i)).baseAddr ∧
    (win.populate cfg ex n).rkey i = (ex (cfg.mpiRank i)).rkey ∧
    (win.populate cfg ex n).rsize i = toUint64 (ex (cfg.mpiRank i)).size := by
  induction n with
  | zero => exact absurd hi (Nat.not_lt_zero i)
  | succ n ih =>
    by_cases hin : i = n
    · subst hin
      simp [Window.populate, Window.fill]
    · have hlt : i < n := by omega
      simpa [Window.populate, Window.fill, hin] using ih hlt

/-- The way of the size in one step. -/
theorem toUint64_toInt_eq (n : Nat) : toUint64 (toInt n) = throughInt n := by
  unfold toUint64 toInt throughInt
  rw [Int.bmod_def]
  split <;> split <;> omega

/-- For the clients of a rank, the exchange comes to `mpWindowCreate`: what the
ranks have given, by rank, is stored by client. -/
theorem exchangeWindows_get (n : Nat) (calls : Nat → WindowCall) (a : Nat) {i : Nat} (hi : i < cfg.clientCount)
    (hn : cfg.mpiRank i < n) :
    let win := mpWindowCreate cfg (fun b => (calls b).addr) (fun b => (calls b).rkey) (fun b => (calls b).size)
    (exchangeWindows cfg n calls a).basePtr i = win.basePtr i ∧ (exchangeWindows cfg n calls a).rkey i = win.rkey i ∧
      (exchangeWindows cfg n calls a).rsize i = win.rsize i := by
  obtain ⟨hbase, hkey, hsize⟩ := Window.populate_get (allgather n (fun b => (calls b).exchangeWin b) a)
    (calls a).arrays hi
  have hslot : allgather n (fun b => (calls b).exchangeWin b) a (cfg.mpiRank i) =
      ⟨(calls (cfg.mpiRank i)).addr, (calls (cfg.mpiRank i)).rkey, toInt (calls (cfg.mpiRank i)).size⟩ := by
    rw [allgather, if_pos hn]
    simp [WindowCall.exchangeWin]
  rw [hslot] at hbase hkey hsize
  dsimp only at hbase hkey hsize
  rw [toUint64_toInt_eq] at hsize
  exact ⟨hbase, hkey, hsize⟩

theorem clientIndexFrom_mem {l : List Nat} {i peer : Nat} (h : peer ∈ l) : ∃ j, clientIndexFrom l i peer = some j := by
  induction l generalizing i with
  | nil => cases h
  | cons r rest ih =>
    rw [clientIndexFrom]
    cases hk : clientIndexFrom rest (i + 1) peer with
    | some k => exact ⟨k, rfl⟩
    | none =>
      rcases List.mem_cons.mp h with rfl | hmem
      · exact ⟨i, by simp⟩
      · obtain ⟨j, hj⟩ := ih hmem (i := i + 1)
        rw [hk] at hj
        cases hj

/-- The size that arrives is the one sent, unless an `int` does not hold it. -/
theorem throughInt_eq_self {n : Nat} (hn : n < 2 ^ 64) : throughInt n = n ↔ n < 2 ^ 31 ∨ 2 ^ 64 - 2 ^ 31 ≤ n := by
  unfold throughInt
  split <;> omega

/-- The entry `i` of the window is the window of the call, as exact values, and
the displacement check accepts what lies below its size. -/
structure Exact (win : Window) (i : Nat) (call : WindowCall) : Prop where
  base : win.basePtr i = call.addr
  rkey : win.rkey i = call.rkey
  rsize : win.rsize i = call.size
  check : ∀ displ < 2 ^ 64, displ < win.rsize i ↔ displ < call.size

/-- For any number of ranks, any peers and any windows: after
`mp_window_create`, the entry of a peer is the window of that peer exactly if
its size can be an `int`, or is so large that an `int` extended by its sign
is it again. -/
theorem window_entry_exact (n : Nat) (calls : Nat → WindowCall) (a : Nat) {peer : Nat} (hp : peer ∈ cfg.peers)
    (hn : peer < n) : (∃ i, cfg.clientIndex peer = some i ∧ Exact (exchangeWindows cfg n calls a) i (calls peer)) ↔
      (calls peer).size < 2 ^ 31 ∨ 2 ^ 64 - 2 ^ 31 ≤ (calls peer).size := by
  obtain ⟨i, hi⟩ := clientIndexFrom_mem hp (i := 0)
  have hidx : cfg.clientIndex peer = some i := hi
  have hlt : i < cfg.clientCount := by
    obtain ⟨k, rfl, hk⟩ := clientIndexFrom_eq hi
    rw [Nat.zero_add]
    exact (List.getElem?_eq_some_iff.mp hk).1
  have hrank : cfg.mpiRank i = peer := Config.mpiRank_eq hidx
  obtain ⟨hbase, hkey, hsize⟩ := exchangeWindows_get n calls a hlt (hrank ▸ hn)
  -- address and key are the peer's; the size has gone through an `int`
  dsimp only [mpWindowCreate] at hbase hkey hsize
  rw [hrank] at hbase hkey hsize
  rw [← throughInt_eq_self (calls peer).size_lt]
  constructor
  · rintro ⟨i', hi', h⟩
    rw [hidx] at hi'
    cases hi'
    exact hsize.symm.trans h.rsize
  · intro h
    have hr : (exchangeWindows cfg n calls a).rsize i = (calls peer).size := hsize.trans h
    exact ⟨i, hidx, hbase, hkey, hr, fun displ _ => by rw [hr]⟩

/-- Every rank makes a window of `size` bytes at the same address. -/
def sameWindows (size : Nat) (h : size < 2 ^ 64) :
    Nat → WindowCall := fun _ => ⟨4096, size, 7, fun _ => {}, wideWindow, h⟩

/-- Two ranks with windows of a page. -/
theorem window_entry_exact_page : ∃ i, onePeer.clientIndex 1 = some i ∧
    Exact (exchangeWindows onePeer 2 (sameWindows 4096 (by decide)) 0) i (sameWindows 4096 (by decide) 1) :=
  (window_entry_exact 2 (sameWindows 4096 (by decide)) 0 (by decide) (by decide)).mpr (.inl (by decide))

/-- A window of 2 GiB arrives as one of 2^64 - 2^31 bytes, and the check accepts
the displacement 3 GiB, which is outside. -/
theorem large_window_grows : ∃ win, win = exchangeWindows onePeer 2 (sameWindows (2 ^ 31) (by decide)) 0 ∧
    win.rsize 0 = 2 ^ 64 - 2 ^ 31 ∧ 3 * 2 ^ 30 < win.rsize 0 ∧
    ¬ ∃ i, onePeer.clientIndex 1 = some i ∧ Exact win i (sameWindows (2 ^ 31) (by decide) 1) := by
  refine ⟨_, rfl, by decide, by decide, ?_⟩
  rintro ⟨i, hi, h⟩
  have h0 : i = 0 := by
    have : onePeer.clientIndex 1 = some 0 := by decide
    rw [this] at hi
    cases hi
    rfl
  subst h0
  exact absurd h.rsize (by decide)

/-! ## What a put or get reaches -/

/-- The arguments of a one-sided call that say what it reaches. -/
structure Access where
  size : Int
  displ : Nat
  win : Window

/-- The one-sided calls. -/
def Op.access : Op → Option Access
  | .iput _ size _ _ displ win _ | .iget _ size _ _ displ win | .putPrepare _ size _ _ displ win _
  | .iputOnStream _ size _ _ displ win _ _ | .igetOnStream _ size _ _ displ win _ => some ⟨size, displ, win⟩
  | _ => none

/-- The bytes the work request reaches at the peer lie in the window of client
`c`, and the addresses do not wrap. -/
def Request.ReachesInside (r : Request) (win : Window) (c : Nat) : Prop :=
  ∃ wr remoteAddr rkey, r.inWr = .sr wr ∧ wr.dest = .rdma remoteAddr rkey ∧ ∀ k < r.sgEntry.length,
    win.basePtr c ≤ remoteAddr + k ∧ remoteAddr + k < win.basePtr c + win.rsize c ∧ remoteAddr + k < 2 ^ 64

/-- The work requests and their scatter/gather entries stay. -/
def SameWork (w w' : World) : Prop := ∀ q, (w'.mem q).inWr = (w.mem q).inWr ∧ (w'.mem q).sgEntry = (w.mem q).sgEntry

instance : IsPreorder World SameWork where
  refl _ _ := ⟨rfl, rfl⟩
  trans _ _ _ h₁ h₂ q := ⟨(h₂ q).1.trans (h₁ q).1, (h₂ q).2.trans (h₁ q).2⟩

theorem Carries.sameWork {w w' : World} (h : Carries cfg w w') : SameWork w w' :=
  fun q => ⟨(h.mem q).inWr, (h.mem q).sgEntry⟩

theorem sameWork_release (w : World) (p : Ptr) : SameWork w (w.release p) := by
  intro q
  simp only [World.release]
  refine w.setReq_rel (R := fun r r' => r'.inWr = r.inWr ∧ r'.sgEntry = r.sgEntry) (fun _ => ⟨rfl, rfl⟩) ?_ q
  exact ⟨rfl, rfl⟩

theorem stays_sameWork {α : Type} {m : M α} (h : Stays (Carries cfg) m) : Stays SameWork m := fun s => (h s).sameWork

theorem stays_releaseOnError {m : M Int} (h : Stays SameWork m) (p : Ptr) : Stays SameWork (releaseOnError p m) :=
  .bind h fun _ => .ite (.bind (Stays.update fun w => sameWork_release w p) fun _ => .pure _) (.pure _)

theorem stays_prepareWait (c : Nat) (f : Flow) (p : Ptr) : Stays SameWork (gdsPrepareWaitCq c f p) :=
  stays_sameWork (@Makes.prepareWait {} p c f)

/-- A call whose error is returned. -/
theorem stays_try {m : M Int} {f : M (Int × Option Ptr)} (hm : Stays SameWork m) (hf : Stays SameWork f) :
    Stays SameWork (do
      let ret ← m
      if ret ≠ 0 then return (ret, none)
      f) :=
  .bind hm fun _ => .ite (.pure _) hf

/-- A one-sided call that takes a request keeps its work request to the end,
also when it puts the request back. -/
theorem Op.run_access {op : Op} {a : Access} (ha : op.access = some a) {j : Recipe} (hj : op.recipe cfg = some j)
    {w : World} {c : Nat} (ht : j.Takes cfg w c) (tape : List Ans) :
    SameWork (j.started cfg w c) (op.run cfg ⟨w, tape⟩).2.w := by
  have hsub := stays_sameWork (Op.recipe_submit hj c w.nextFree)
  obtain ⟨hp, hc, hin, hid⟩ := ht
  cases op <;> cases ha <;> cases hj <;> dsimp only [rdmaRecipe] at hp hc hin hsub
  case iput src size reg peer displ win flags =>
    show SameWork _ (mpIput cfg src size reg peer displ win flags ⟨w, tape⟩).2.w
    rw [mpIput, if_neg (by simp [hp]), Prog.bind_ok (clientOf_run hc _), Prog.bind_ok (require_run hin _ _),
      start_run hid]
    refine stays_try hsub ?_ _
    cases !nowait flags with
    | true => exact stays_try (stays_prepareWait c .tx _) (.pure _)
    | false => exact .pure _
  case iget dst size reg peer displ win =>
    show SameWork _ (mpIget cfg dst size reg peer displ win ⟨w, tape⟩).2.w
    rw [mpIget, if_neg (by simp [hp]), Prog.bind_ok (clientOf_run hc _), Prog.bind_ok (require_run hin _ _),
      start_run hid]
    exact stays_try hsub (stays_try (stays_prepareWait c .tx _) (.pure _)) _
  case putPrepare src size reg peer displ win flags =>
    show SameWork _ (mpPutPrepare cfg src size reg peer displ win flags ⟨w, tape⟩).2.w
    rw [mpPutPrepare, if_neg (by simp [hp]), Prog.bind_ok (clientOf_run hc _), Prog.bind_ok (require_run hin _ _),
      start_run hid]
    refine stays_releaseOnError (.bind hsub fun _ => .ite (.pure _) ?_) _ _
    exact .ite (.pure _) (stays_prepareWait c .tx _)
  case iputOnStream src size reg peer displ win flags s =>
    show SameWork _ (mpIputOnStream cfg src size reg peer displ win flags s ⟨w, tape⟩).2.w
    rw [mpIputOnStream, if_neg (by simp [hp]), Prog.bind_ok (clientOf_run hc _), Prog.bind_ok (require_run hin _ _),
      start_run hid]
    refine stays_releaseOnError (.bind hsub fun _ => .ite (.pure _) ?_) _ _
    refine .ite (.bind (Stays.update fun w => ?_) fun _ => .pure _) (stays_prepareWait c .tx _)
    exact (@Carries.setStatus {} w _ _).sameWork
  case igetOnStream dst size reg peer displ win s =>
    show SameWork _ (mpIgetOnStream cfg dst size reg peer displ win s ⟨w, tape⟩).2.w
    rw [mpIgetOnStream, if_neg (by simp [hp]), Prog.bind_ok (clientOf_run hc _), Prog.bind_ok (require_run hin _ _),
      start_run hid]
    exact stays_try hsub (stays_try (stays_prepareWait c .tx _) (.pure _)) _

/-- What the work request of a one-sided call says. -/
theorem Op.started_access {op : Op} {a : Access} (ha : op.access = some a) {j : Recipe} (hj : op.recipe cfg = some j)
    (w : World) (c : Nat) : ∃ wr, ((j.started cfg w c).mem w.nextFree).inWr = .sr wr ∧
      wr.dest = rdmaDest a.win c a.displ ∧ ((j.started cfg w c).mem w.nextFree).sgEntry.length = len32 a.size := by
  cases op <;> cases ha <;> cases hj
  all_goals
    refine ⟨_, by simp [Recipe.started, rdmaRecipe, World.buildPut, World.buildGet, putWr, getWr]; rfl, rfl, ?_⟩
    simp [Recipe.started, rdmaRecipe, World.buildPut, World.buildGet]

/-- `n` bytes from a displacement on, the address taken modulo 2^64. -/
theorem bytes_inside_iff {base displ n rsize : Nat} (hb : base < 2 ^ 64) (hd : displ < 2 ^ 64) :
    (∀ k < n, base ≤ (base + displ) % 2 ^ 64 + k ∧ (base + displ) % 2 ^ 64 + k < base + rsize ∧
      (base + displ) % 2 ^ 64 + k < 2 ^ 64) ↔ n = 0 ∨ displ + n ≤ rsize ∧ base + displ + n ≤ 2 ^ 64 := by
  constructor
  · intro h
    by_cases hn : n = 0
    · exact .inl hn
    · right
      -- the first byte shows that the address has not wrapped, the last one the end
      have hfirst := h 0 (by omega)
      have hlast := h (n - 1) (by omega)
      have hno : (base + displ) % 2 ^ 64 = base + displ := by omega
      rw [hno] at hlast
      omega
  · rintro (hn | ⟨h₁, h₂⟩) k hk
    · omega
    · have hno : (base + displ) % 2 ^ 64 = base + displ := Nat.mod_eq_of_lt (by omega)
      rw [hno]
      omega

/-- A call of `mp_iput`, `mp_iget`, `mp_put_prepare`, `mp_iput_on_stream` or
`mp_iget_on_stream` that passes its checks and builds a work request, whatever
becomes of it: the bytes it reaches lie in the window of the peer exactly if
there are none, or the displacement and the size together stay in the window
and below the end of the addresses. The call checks the displacement alone. -/
theorem access_stays_inside {op : Op} {a : Access} (ha : op.access = some a) {j : Recipe} (hj : op.recipe cfg = some j)
    {w : World} {c : Nat} (ht : j.Takes cfg w c) (tape : List Ans) (hsize : 0 ≤ a.size) (hint : a.size < 2 ^ 31)
    (hbase : a.win.basePtr c < 2 ^ 64) (hdispl : a.displ < 2 ^ 64) :
    ((op.run cfg ⟨w, tape⟩).2.w.mem w.nextFree).ReachesInside a.win c ↔
      a.size = 0 ∨ a.displ + a.size.toNat ≤ a.win.rsize c ∧
        a.win.basePtr c + a.displ + a.size.toNat ≤ 2 ^ 64 := by
  obtain ⟨wr, hwr, hdest, hlen⟩ := Op.started_access ha hj w c
  obtain ⟨hin, hsg⟩ := Op.run_access ha hj ht tape w.nextFree
  have hlen' : len32 a.size = a.size.toNat := by
    unfold len32
    omega
  have hzero : a.size = 0 ↔ a.size.toNat = 0 := by omega
  -- what the access says of the started request holds at the end of the call
  rw [hzero, ← bytes_inside_iff hbase hdispl, Request.ReachesInside, hin, hsg, hwr, hlen, hlen']
  constructor
  · rintro ⟨wr', remoteAddr, rkey, hwr', hd, h⟩
    cases hwr'
    rw [hdest] at hd
    cases hd
    exact h
  · intro h
    exact ⟨wr, _, _, rfl, hdest, h⟩

/-- A put of the last 8 bytes of a page. -/
theorem access_stays_inside_end : ∃ s', (Op.iput 0 8 ⟨0⟩ 1 4088 wideWindow 0).run onePeer ⟨World.init, []⟩ =
    (.ok (0, some 0), s') ∧ (s'.w.mem 0).ReachesInside wideWindow 0 := by
  have hj : (Op.iput 0 8 ⟨0⟩ 1 4088 wideWindow 0).recipe onePeer = some _ := rfl
  have h := access_stays_inside rfl hj ⟨rfl, rfl, rfl, by decide⟩ [] (by decide) (by decide) (by decide) (by decide)
    (a := ⟨8, 4088, wideWindow⟩) (w := World.init) (c := 0)
  exact ⟨_, rfl, h.mpr (.inr (by decide))⟩

/-- A put of 8 bytes that starts 6 bytes before the end of the window passes the
checks and is posted. -/
theorem put_runs_over_the_end : ∃ s', (Op.iput 0 8 ⟨0⟩ 1 4090 wideWindow 0).run onePeer ⟨World.init, []⟩ =
    (.ok (0, some 0), s') ∧ .accepted 0 .tx 0 1 ∈ s'.w.log ∧ wideWindow.rsize 0 = 4096 ∧
    ¬ (s'.w.mem 0).ReachesInside wideWindow 0 := by
  have hrun : (Op.iput 0 8 ⟨0⟩ 1 4090 wideWindow 0).run onePeer ⟨World.init, []⟩ = (.ok (0, some 0), _) := rfl
  refine ⟨_, hrun, by decide, rfl, ?_⟩
  generalize hr : Sys.w _ = w'
  have hwork : (w'.mem 0).inWr = .sr ⟨true, false, .expWrRdmaWrite, 0, 1, .sgEntry, .rdma 4090 0⟩ := by
    subst hr
    decide
  have hlen : (w'.mem 0).sgEntry.length = 8 := by
    subst hr
    decide
  rintro ⟨wr, remoteAddr, rkey, hwr, hd, h⟩
  rw [hwork] at hwr
  cases hwr
  cases hd
  have hlast := (h 7 (by rw [hlen]; decide)).2.1
  simp [wideWindow] at hlast

end LibMp
